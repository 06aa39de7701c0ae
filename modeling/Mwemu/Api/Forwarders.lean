import Mwemu.Api.ExportIndex

/-!
# Forwarded exports

A lookup by module name spends one unit of the depth on the export that it starts from and enters it
among the visited ones; a lookup by base does neither. They agree unless the chain of forwarders has
the full length or meets an ordinal that is spelled like the name it started from.
-/

namespace Mwemu.Api

open Mwemu.Lib List Option

def maxForwarderDepth : Nat := 8

def normalizeExportName (name : Text) : Text := name.trim.toAsciiLowercase

namespace ModuleExportIndex

def resolveName (m : ModuleExportIndex) (name : Text) : Option IndexedExport :=
  (m.byName name).bind fun idx => (m.byOrdinal[idx]?).join

def resolveOrdinal (m : ModuleExportIndex) (ordinal : Nat) : Option IndexedExport :=
  if ordinal < m.exportBase then none else (m.byOrdinal[ordinal - m.exportBase]?).join

end ModuleExportIndex

abbrev VisitKey := Text × Text

namespace ExportIndexRegistry

/-- For a depth that is not 0; `follow` resolves a forwarder with one unit less. -/
def resolveNameInModuleInner (r : ExportIndexRegistry) (follow : List VisitKey → Text → Nat)
    (module name : Text) (visited : List VisitKey) : Nat :=
  match (r.byName module).bind fun m => m.resolveName name with
  | none => 0
  | some (.direct address) => address
  | some (.forwarder value) =>
    if (module, name) ∈ visited then 0 else follow (visited ++ [(module, name)]) value

def parseForwarderAndResolve (r : ExportIndexRegistry) : Nat → List VisitKey → Text → Nat
  | 0, _, _ => 0
  | depth + 1, visited, value =>
    match value.splitOnce '.' with
    | none => 0
    | some (dll, '#' :: digits) =>
      match Text.parseU32 digits with
      | none => 0
      | some ordinal =>
        match (r.byName (normalizeModuleName dll)).bind fun m => m.resolveOrdinal ordinal with
        | none => 0
        | some (.direct address) => address
        | some (.forwarder value) =>
          let key := (normalizeModuleName dll, '#' :: Nat.toDigits 10 ordinal)
          if key ∈ visited then 0
          else r.parseForwarderAndResolve depth (visited ++ [key]) value
    | some (dll, sym) =>
      r.resolveNameInModuleInner (r.parseForwarderAndResolve depth) (normalizeModuleName dll)
        sym.toAsciiLowercase visited

def resolveNameInModule (r : ExportIndexRegistry) (module name : Text) : Nat :=
  r.resolveNameInModuleInner (r.parseForwarderAndResolve (maxForwarderDepth - 1))
    (normalizeModuleName module) (normalizeExportName name) []

def resolveNameByBase (r : ExportIndexRegistry) (base : Nat) (name : Text) : Nat :=
  match (r.getByBase base).bind fun m => m.resolveName (normalizeExportName name) with
  | none => 0
  | some (.direct address) => address
  | some (.forwarder value) => r.parseForwarderAndResolve maxForwarderDepth [] value

end ExportIndexRegistry

/-! ### Chains of forwarders -/

inductive ExportRef where
  | name (module symbol : Text)
  | ordinal (module : Text) (number : Nat)
  deriving DecidableEq, Repr

namespace ExportRef

def find (r : ExportIndexRegistry) : ExportRef → Option IndexedExport
  | name module symbol => (r.byName module).bind fun m => m.resolveName symbol
  | ordinal module number => (r.byName module).bind fun m => m.resolveOrdinal number

def key : ExportRef → VisitKey
  | name module symbol => (module, symbol)
  | ordinal module number => (module, '#' :: Nat.toDigits 10 number)

def ofForwarder (value : Text) : Option ExportRef :=
  match value.splitOnce '.' with
  | none => none
  | some (dll, '#' :: digits) =>
    (Text.parseU32 digits).map fun n => ordinal (normalizeModuleName dll) n
  | some (dll, sym) => some (name (normalizeModuleName dll) sym.toAsciiLowercase)

end ExportRef

/-- From the export the forwarders lead over the exports of the list to an address. -/
inductive Leads (r : ExportIndexRegistry) : IndexedExport → List ExportRef → Nat → Prop where
  | direct (a : Nat) : Leads r (.direct a) [] a
  | forwarder {value : Text} {ref : ExportRef} {e : IndexedExport} {refs : List ExportRef} {a : Nat}
      (href : ExportRef.ofForwarder value = some ref) (hfind : ref.find r = some e)
      (hrest : Leads r e refs a) : Leads r (.forwarder value) (ref :: refs) a

section Chains

variable {r : ExportIndexRegistry} {e : IndexedExport} {refs refs' : List ExportRef} {a a' : Nat}
  {value : Text} {depth : Nat} {visited : List VisitKey}

theorem parseForwarderAndResolve_succ : r.parseForwarderAndResolve (depth + 1) visited value =
      match (ExportRef.ofForwarder value).bind fun ref => (ref.find r).map fun e => (ref, e) with
      | none => 0
      | some (_, .direct address) => address
      | some (ref, .forwarder value) => if ref.key ∈ visited then 0
        else r.parseForwarderAndResolve depth (visited ++ [ref.key]) value := by
  rw [ExportIndexRegistry.parseForwarderAndResolve, ExportRef.ofForwarder]
  split
  · next hsplit => simp only [bind_none]
  · next dll digits hsplit =>
    cases Text.parseU32 digits with
    | none => rfl
    | some n =>
      simp only [map_some, bind_some, ExportRef.find]
      cases (r.byName (normalizeModuleName dll)).bind fun m => m.resolveOrdinal n with
      | none => rfl
      | some e => cases e <;> rfl
  · next dll sym hsharp hsplit =>
    simp only [bind_some, ExportRef.find, ExportIndexRegistry.resolveNameInModuleInner]
    cases (r.byName (normalizeModuleName dll)).bind fun m =>
        m.resolveName sym.toAsciiLowercase with
    | none => rfl
    | some e => cases e <;> rfl

theorem leads_forwarder_iff : Leads r (.forwarder value) refs a ↔
    ∃ ref e rest, ExportRef.ofForwarder value = some ref ∧ ref.find r = some e ∧
      refs = ref :: rest ∧ Leads r e rest a := by
  constructor
  · rintro (_ | ⟨href, hfind, hrest⟩)
    exact ⟨_, _, _, href, hfind, rfl, hrest⟩
  · rintro ⟨ref, e, rest, href, hfind, rfl, hrest⟩
    exact .forwarder href hfind hrest

theorem Leads.unique (hleads : Leads r e refs a) (hleads' : Leads r e refs' a') :
    refs = refs' ∧ a = a' := by
  induction hleads generalizing refs' with
  | direct a =>
    cases hleads'
    exact ⟨rfl, rfl⟩
  | forwarder href hfind _ ih =>
    cases hleads' with
    | forwarder href' hfind' hrest' =>
      obtain rfl := Option.some.inj (href.symm.trans href')
      obtain rfl := Option.some.inj (hfind.symm.trans hfind')
      obtain ⟨rfl, rfl⟩ := ih hrest'
      exact ⟨rfl, rfl⟩

/-- None of the exports that are passed was visited before. -/
def Unvisited (visited : List VisitKey) (refs : List ExportRef) : Prop :=
  (refs.dropLast.map ExportRef.key).Nodup ∧ ∀ key ∈ visited, key ∉ refs.dropLast.map ExportRef.key

variable {ref : ExportRef}

theorem unvisited_cons_iff (hrefs : refs ≠ []) : Unvisited visited (ref :: refs) ↔
      ref.key ∉ visited ∧ Unvisited (visited ++ [ref.key]) refs := by
  rw [Unvisited, Unvisited, dropLast_cons_of_ne_nil hrefs, map_cons, nodup_cons]
  simp only [mem_cons, mem_append, not_or, or_imp, forall_and, forall_eq,
    not_mem_nil, false_implies, and_true]
  constructor
  · rintro ⟨⟨hfirst, hnodup⟩, hne, hrest⟩
    exact ⟨fun hseen => hne _ hseen rfl, hnodup, hrest, hfirst⟩
  · rintro ⟨hseen, hnodup, hrest, hfirst⟩
    exact ⟨⟨hfirst, hnodup⟩, fun key hkey heq => hseen (heq ▸ hkey), hrest⟩

theorem parseForwarderAndResolve_eq_iff (ha : a ≠ 0) :
    r.parseForwarderAndResolve depth visited value = a ↔
      ∃ refs, Leads r (.forwarder value) refs a ∧ refs.length ≤ depth ∧ Unvisited visited refs := by
  induction depth generalizing visited value with
  | zero =>
    refine iff_of_false (fun hzero => ha hzero.symm) ?_
    rintro ⟨refs, hleads, hlen, -⟩
    cases hleads
    cases hlen
  | succ depth ih =>
    rw [parseForwarderAndResolve_succ]
    simp only [leads_forwarder_iff]
    cases href : ExportRef.ofForwarder value with
    | none => exact iff_of_false (fun hzero => ha hzero.symm) (by simp)
    | some ref =>
      cases hfind : ref.find r with
      | none => exact iff_of_false (by simpa [hfind] using ha.symm) (by simp [hfind])
      | some e =>
        simp only [bind_some, hfind, map_some]
        cases e with
        | direct b =>
          constructor
          · rintro rfl
            exact ⟨[ref], ⟨ref, _, [], rfl, hfind, rfl, .direct b⟩, Nat.succ_pos _, .nil,
              fun _ _ => not_mem_nil⟩
          · rintro ⟨_, ⟨_, e, rest, ⟨⟩, hfind', rfl, hrest⟩, -, -⟩
            cases hfind.symm.trans hfind'
            cases hrest
            rfl
        | forwarder next =>
          have hnext : ∀ refs, Leads r (.forwarder next) refs a → (Unvisited visited (ref :: refs) ↔
                ref.key ∉ visited ∧ Unvisited (visited ++ [ref.key]) refs) := by
            rintro _ (_ | _)
            exact unvisited_cons_iff (cons_ne_nil _ _)
          dsimp only
          by_cases hseen : ref.key ∈ visited
          · rw [if_pos hseen]
            refine iff_of_false (fun hzero => ha hzero.symm) ?_
            rintro ⟨_, ⟨_, e, rest, ⟨⟩, hfind', rfl, hrest⟩, -, hunvisited⟩
            cases hfind.symm.trans hfind'
            exact ((hnext rest hrest).mp hunvisited).1 hseen
          rw [if_neg hseen, ih]
          constructor
          · rintro ⟨refs, hleads, hlen, hunvisited⟩
            exact ⟨ref :: refs, ⟨ref, _, refs, rfl, hfind, rfl, hleads⟩,
              Nat.succ_le_succ hlen, (hnext refs hleads).mpr ⟨hseen, hunvisited⟩⟩
          · rintro ⟨_, ⟨_, e, rest, ⟨⟩, hfind', rfl, hrest⟩, hlen, hunvisited⟩
            cases hfind.symm.trans hfind'
            exact ⟨rest, hrest, Nat.le_of_succ_le_succ hlen, ((hnext rest hrest).mp hunvisited).2⟩

def settle (follow : Text → Nat) : IndexedExport → Nat
  | .direct address => address
  | .forwarder value => follow value

theorem settle_eq_iff (ha : a ≠ 0) : settle (r.parseForwarderAndResolve depth visited) e = a ↔
      ∃ refs, Leads r e refs a ∧ refs.length ≤ depth ∧ Unvisited visited refs := by
  cases e with
  | direct b =>
    constructor
    · rintro rfl
      exact ⟨[], .direct _, Nat.zero_le _, .nil, fun _ _ => not_mem_nil⟩
    · rintro ⟨refs, hleads, -⟩
      cases hleads
      rfl
  | forwarder value => exact parseForwarderAndResolve_eq_iff ha

theorem Leads.ofForwarder (hleads : Leads r e refs a) :
    ∀ ref ∈ refs, ∃ value, ExportRef.ofForwarder value = some ref := by
  induction hleads with
  | direct a => exact fun _ hmem => (not_mem_nil hmem).elim
  | forwarder href _ _ ih => exact forall_mem_cons.mpr ⟨⟨_, href⟩, ih⟩

theorem Leads.append {before : List ExportRef} (hleads : Leads r e (before ++ ref :: refs) a) :
    ∃ e', ref.find r = some e' ∧ Leads r e' refs a := by
  induction before generalizing e with
  | nil =>
    cases hleads with
    | forwarder href hfind hrest => exact ⟨_, hfind, hrest⟩
  | cons _ before ih =>
    cases hleads with
    | forwarder href hfind hrest => exact ih hrest

theorem Leads.nodup (hleads : Leads r e refs a) : refs.Nodup := by
  induction hleads with
  | direct a => exact .nil
  | @forwarder _ ref _ refs _ _ hfind hrest ih =>
    refine nodup_cons.mpr ⟨fun hmem => ?_, ih⟩
    obtain ⟨before, after, rfl⟩ := append_of_mem hmem
    obtain ⟨e', hfind', hrest'⟩ := hrest.append
    obtain rfl := Option.some.inj (hfind.symm.trans hfind')
    have hlen := congrArg List.length (hrest.unique hrest').1
    rw [length_append, length_cons] at hlen
    omega

theorem ExportRef.ofForwarder_name {module symbol : Text}
    (href : ofForwarder value = some (name module symbol)) : symbol.head? ≠ some '#' := by
  rw [ofForwarder] at href
  split at href
  · cases href
  · cases map_eq_some_iff.mp href with
    | intro n hn => cases hn.2
  · next dll sym hsharp _ =>
    cases href
    cases sym with
    | nil => exact nofun
    | cons c sym =>
      intro hhead
      rw [Text.toAsciiLowercase_eq, map_cons, List.head?_cons, Option.some.injEq,
        Text.toLower_eq_iff rfl] at hhead
      exact hsharp sym (by rw [hhead])

/-- Exports that forwarders name are told apart by how they are entered. -/
theorem ExportRef.key_injective {ref' : ExportRef} {value' : Text}
    (href : ofForwarder value = some ref) (href' : ofForwarder value' = some ref')
    (hkey : ref.key = ref'.key) : ref = ref' := by
  cases ref with
  | name module symbol =>
    cases ref' with
    | name module' symbol' =>
      cases hkey
      rfl
    | ordinal module' number =>
      cases hkey
      exact (ofForwarder_name href rfl).elim
  | ordinal module number =>
    cases ref' with
    | name module' symbol' =>
      cases hkey
      exact (ofForwarder_name href' rfl).elim
    | ordinal module' number' =>
      obtain ⟨rfl, hdigits⟩ := Prod.mk.inj hkey
      rw [List.cons.injEq] at hdigits
      rw [← Nat.ofDigitChars_ten_toDigits (n := number), hdigits.2, Nat.ofDigitChars_ten_toDigits]

theorem Leads.unvisited_iff (hleads : Leads r e refs a) (start : VisitKey) : Unvisited [] refs ∧
      (Unvisited [start] refs ↔ start ∉ refs.dropLast.map ExportRef.key) := by
  have hnodup : (refs.dropLast.map ExportRef.key).Nodup := by
    refine List.Nodup.map_on (fun ref href ref' href' => ?_)
      (hleads.nodup.sublist (dropLast_sublist refs))
    obtain ⟨value, hvalue⟩ := hleads.ofForwarder ref (dropLast_subset _ href)
    obtain ⟨value', hvalue'⟩ := hleads.ofForwarder ref' (dropLast_subset _ href')
    exact ExportRef.key_injective hvalue hvalue'
  refine ⟨⟨hnodup, fun _ hmem => (not_mem_nil hmem).elim⟩, ?_⟩
  rw [Unvisited, and_iff_right hnodup]
  exact forall_mem_singleton

end Chains

theorem agree_iff (r : ExportIndexRegistry) (module name : Text) (m : ModuleExportIndex)
    (hname : r.getByName module = some m) (hbase : r.getByBase m.base = some m) :
    (r.resolveNameInModule module name = r.resolveNameByBase m.base name ∧
      ∀ e refs a, m.resolveName (normalizeExportName name) = some e → Leads r e refs a →
        refs.length ≤ maxForwarderDepth →
          r.resolveNameInModule module name = a ∧ r.resolveNameByBase m.base name = a) ↔
    ∀ e refs a, m.resolveName (normalizeExportName name) = some e → Leads r e refs a → a ≠ 0 →
      refs.length ≤ maxForwarderDepth → refs.length < maxForwarderDepth ∧
        (normalizeModuleName module, normalizeExportName name) ∉
          refs.dropLast.map ExportRef.key := by
  have hbyName : ∀ e a, m.resolveName (normalizeExportName name) = some e → a ≠ 0 →
      (r.resolveNameInModule module name = a ↔ ∃ refs, Leads r e refs a ∧
        refs.length < maxForwarderDepth ∧ (normalizeModuleName module, normalizeExportName name) ∉
          refs.dropLast.map ExportRef.key) := by
    intro e a he ha
    have hsettle : r.resolveNameInModule module name = settle (r.parseForwarderAndResolve 7
          [(normalizeModuleName module, normalizeExportName name)]) e := by
      rw [ExportIndexRegistry.resolveNameInModule, ExportIndexRegistry.resolveNameInModuleInner,
        show r.byName (normalizeModuleName module) = some m from hname, bind_some, he]
      cases e <;> rfl
    rw [hsettle, settle_eq_iff ha]
    refine exists_congr fun refs => and_congr_right fun hleads => ?_
    rw [(hleads.unvisited_iff _).2, maxForwarderDepth, Nat.lt_succ_iff]
  have hbyBase : ∀ e a, m.resolveName (normalizeExportName name) = some e → a ≠ 0 →
      (r.resolveNameByBase m.base name = a ↔
        ∃ refs, Leads r e refs a ∧ refs.length ≤ maxForwarderDepth) := by
    intro e a he ha
    have hsettle : r.resolveNameByBase m.base name =
        settle (r.parseForwarderAndResolve maxForwarderDepth []) e := by
      rw [ExportIndexRegistry.resolveNameByBase, hbase, bind_some, he]
      cases e <;> rfl
    rw [hsettle, settle_eq_iff ha]
    refine exists_congr fun refs => and_congr_right fun hleads => and_iff_left ?_
    exact (hleads.unvisited_iff ([], [])).1
  constructor
  · rintro ⟨-, hfinds⟩ e refs a he hleads ha hlen
    obtain ⟨refs', hleads', hshort⟩ := (hbyName e a he ha).mp (hfinds e refs a he hleads hlen).1
    rwa [(hleads.unique hleads').1]
  intro hshort
  cases he : m.resolveName (normalizeExportName name) with
  | none =>
    refine ⟨?_, fun e refs a he' => (nomatch he')⟩
    rw [ExportIndexRegistry.resolveNameInModule, ExportIndexRegistry.resolveNameInModuleInner,
      show r.byName (normalizeModuleName module) = some m from hname,
      ExportIndexRegistry.resolveNameByBase, hbase, bind_some, he]
  | some e =>
    have hagree : ∀ a, a ≠ 0 → (r.resolveNameInModule module name = a ↔
        r.resolveNameByBase m.base name = a) := by
      intro a ha
      rw [hbyName e a he ha, hbyBase e a he ha]
      exact ⟨fun ⟨refs, hleads, hlt, _⟩ => ⟨refs, hleads, hlt.le⟩,
        fun ⟨refs, hleads, hle⟩ => ⟨refs, hleads, hshort e refs a he hleads ha hle⟩⟩
    have hsame : r.resolveNameInModule module name = r.resolveNameByBase m.base name := by
      by_cases hzero : r.resolveNameInModule module name = 0
      · by_contra hne
        exact hne ((hagree _ fun hbase => hne (hzero.trans hbase.symm)).mpr rfl)
      · exact ((hagree _ hzero).mp rfl).symm
    refine ⟨hsame, fun e' refs a he' hleads hlen => ?_⟩
    cases he'
    rw [hsame, and_self]
    by_cases ha : a = 0
    · -- another address would be that of another chain
      by_contra hne
      obtain ⟨refs', hleads', -⟩ := (hbyBase e _ he fun hzero => hne (hzero.trans ha.symm)).mp rfl
      exact hne (hleads'.unique hleads).2
    · exact (hbyBase e a he ha).mpr ⟨refs, hleads, hlen⟩

/-- A registry that was built without dropping the base of another module and whose bases are
distinct finds each module by its base. -/
theorem getByBase_of_run {ops : List RegistryOp} {s : Registered} {module : Text}
    {m : ModuleExportIndex}
    (hops : Along Registered.step (fun s op => op.Unshared s.registry) .start ops)
    (hrun : run Registered.step .start ops = some s)
    (hdistinct : ∀ n n' m m', s.registry.byName n = some m → s.registry.byName n' = some m' →
      m.base = m'.base → n = n')
    (hname : s.registry.getByName module = some m) : s.registry.getByBase m.base = some m := by
  obtain ⟨m', hget, hbase⟩ := ((consistent_of_run hops hrun).2 m.base).mpr ⟨_, m, hname, rfl⟩
  obtain ⟨n, -, hn⟩ := bind_eq_some_iff.mp hget
  obtain rfl := hdistinct n _ m' m hn hname hbase
  rw [hget, ← hn]
  exact hname

def forwarded (n : Nat) : ModuleExportIndex where
  normalizedName := ['m']
  base := 1
  exportBase := 0
  byName symbol := if symbol = ['n'] then some 0 else none
  byOrdinal := (List.range n).map (fun i =>
    some (.forwarder ("m.#".toList ++ Nat.toDigits 10 (i + 1)))) ++ [some (.direct 5)]

end Mwemu.Api
