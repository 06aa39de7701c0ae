import Mwemu.Lib.Run
import Mwemu.Lib.Text

/-!
# The registry of exports

Three tables are kept of the modules that are mapped: by name, by base and in the order of
registration. A registration or a removal drops the base of the module that goes, whichever module
is filed under it, so that modules that share a base can lose their entry.
-/

namespace Mwemu.Api

open Mwemu.Lib List Option Function

inductive IndexedExport where
  | direct (address : Nat)
  | forwarder (value : Text)
  deriving DecidableEq, Repr

/-- The exports of a module: names lead to slots of the table of functions. -/
structure ModuleExportIndex where
  normalizedName : Text
  base : Nat
  exportBase : Nat
  byName : Text → Option Nat
  byOrdinal : List (Option IndexedExport)

structure ExportIndexRegistry where
  byName : Text → Option ModuleExportIndex
  byBase : Nat → Option Text
  order : List Text

def normalizeModuleName (name : Text) : Text :=
  let n := name.trim.toAsciiLowercase
  let n := (n.rsplitOnce '\\').elim n Prod.snd
  let n := (n.rsplitOnce '/').elim n Prod.snd
  (n.stripSuffix ".dll".toList).getD n

namespace ExportIndexRegistry

def new : ExportIndexRegistry := ⟨fun _ => none, fun _ => none, []⟩

def register (r : ExportIndexRegistry) (index : ModuleExportIndex) : ExportIndexRegistry :=
  let key := index.normalizedName
  let r :=
    match r.byName key with
    | some existing => { r with byBase := Function.update r.byBase existing.base none }
    | none => { r with order := r.order ++ [key] }
  { r with
    byBase := Function.update r.byBase index.base (some key)
    byName := Function.update r.byName key (some index) }

def remove (r : ExportIndexRegistry) (module : Text) : ExportIndexRegistry × Bool :=
  let key := normalizeModuleName module
  match r.byName key with
  | none => (r, false)
  | some index =>
    ({ byName := Function.update r.byName key none
       byBase := Function.update r.byBase index.base none
       order := r.order.erase key }, true)

def getByName (r : ExportIndexRegistry) (module : Text) : Option ModuleExportIndex :=
  r.byName (normalizeModuleName module)

def getByBase (r : ExportIndexRegistry) (base : Nat) : Option ModuleExportIndex :=
  (r.byBase base).bind r.byName

end ExportIndexRegistry

/-! ### What was registered -/

inductive RegistryOp where
  | register (index : ModuleExportIndex)
  | remove (module : Text)

/-- A name that is in use, with the time of its first registration and its last one. -/
structure Life where
  since : Nat
  index : ModuleExportIndex

/-- The names in use after a number of calls. -/
structure History where
  time : Nat
  lives : Text → Option Life

def History.step (h : History) (op : RegistryOp) : History where
  time := h.time + 1
  lives :=
    match op with
    | .register index => Function.update h.lives index.normalizedName
        (some ⟨((h.lives index.normalizedName).map Life.since).getD h.time, index⟩)
    | .remove module => Function.update h.lives (normalizeModuleName module) none

def History.age (h : History) (n : Text) : Option Nat := (h.lives n).map Life.since

structure Registered where
  registry : ExportIndexRegistry
  history : History

def Registered.start : Registered := ⟨.new, 0, fun _ => none⟩

def Registered.step (s : Registered) (op : RegistryOp) : Option Registered :=
  some ⟨match op with
    | .register index => s.registry.register index
    | .remove module => (s.registry.remove module).1, s.history.step op⟩

/-- Names are found as they were last registered, and `order` lists them by age. -/
structure Listed (s : Registered) : Prop where
  names : ∀ module, s.registry.getByName module =
    (s.history.lives (normalizeModuleName module)).map Life.index
  live : ∀ n, s.registry.byName n = (s.history.lives n).map Life.index
  nodup : s.registry.order.Nodup
  mem : ∀ n, n ∈ s.registry.order ↔ (s.history.age n).isSome
  aged : s.registry.order.Pairwise fun a b => ∀ i j, s.history.age a = some i →
    s.history.age b = some j → i < j
  past : ∀ n i, s.history.age n = some i → i < s.history.time
  filed : ∀ b n, s.registry.byBase b = some n → ∃ m, s.registry.byName n = some m ∧ m.base = b

/-- A base leads to a module that has it exactly if there is one. -/
def Based (r : ExportIndexRegistry) : Prop :=
  ∀ b, (∃ m, r.getByBase b = some m ∧ m.base = b) ↔ ∃ n m, r.byName n = some m ∧ m.base = b

/-- No other module has the base that the call drops. -/
def RegistryOp.Unshared (r : ExportIndexRegistry) : RegistryOp → Prop
  | .register index => ∀ old, r.byName index.normalizedName = some old → old.base ≠ index.base →
      ∀ n m, n ≠ index.normalizedName → r.byName n = some m → m.base ≠ old.base
  | .remove module => ∀ old, r.byName (normalizeModuleName module) = some old →
      ∀ n m, n ≠ normalizeModuleName module → r.byName n = some m → m.base ≠ old.base

/-! ### One call -/

section Calls

variable {r : ExportIndexRegistry} {s s' : Registered} (index : ModuleExportIndex)

theorem register_byName :
    (r.register index).byName = Function.update r.byName index.normalizedName (some index) := by
  rw [ExportIndexRegistry.register]
  cases r.byName index.normalizedName <;> rfl

theorem register_byBase (b : Nat) :
    (r.register index).byBase b = if b = index.base then some index.normalizedName
      else if (r.byName index.normalizedName).any fun old => old.base = b then none
      else r.byBase b := by
  rw [ExportIndexRegistry.register]
  cases r.byName index.normalizedName with
  | none => simp [update_apply]
  | some old => simp [update_apply, eq_comm]

theorem register_order : (r.register index).order =
      if (r.byName index.normalizedName).isSome then r.order
      else r.order ++ [index.normalizedName] := by
  rw [ExportIndexRegistry.register]
  cases r.byName index.normalizedName <;> rfl

theorem remove_byName (module : Text) :
    (r.remove module).1.byName = Function.update r.byName (normalizeModuleName module) none := by
  rw [ExportIndexRegistry.remove]
  cases hkey : r.byName (normalizeModuleName module) with
  | none => exact (update_eq_self_iff.mpr hkey.symm).symm
  | some index => rfl

theorem remove_byBase (module : Text) (b : Nat) : (r.remove module).1.byBase b =
      if (r.byName (normalizeModuleName module)).any fun old => old.base = b then none
      else r.byBase b := by
  rw [ExportIndexRegistry.remove]
  cases r.byName (normalizeModuleName module) with
  | none => rfl
  | some index => simp [update_apply, eq_comm]

theorem remove_order (module : Text) (hmem : ∀ n ∈ r.order, (r.byName n).isSome) :
    (r.remove module).1.order = r.order.erase (normalizeModuleName module) := by
  rw [ExportIndexRegistry.remove]
  cases hkey : r.byName (normalizeModuleName module) with
  | none =>
    refine (erase_of_not_mem fun hin => ?_).symm
    have hsome := hmem _ hin
    rw [hkey] at hsome
    cases hsome
  | some index => rfl

theorem listed_start : Listed .start where
  names _ := rfl
  live _ := rfl
  nodup := nodup_nil
  mem _ := iff_of_false not_mem_nil nofun
  aged := .nil
  past := nofun
  filed := nofun

theorem lives_register (h : History) (index : ModuleExportIndex) (n : Text) :
    (h.step (.register index)).lives n = if n = index.normalizedName then
      some ⟨(h.age index.normalizedName).getD h.time, index⟩ else h.lives n :=
  update_apply ..

theorem lives_remove (h : History) (module n : Text) : (h.step (.remove module)).lives n =
      if n = normalizeModuleName module then none else h.lives n :=
  update_apply ..

theorem age_register (h : History) (index : ModuleExportIndex) (n : Text) :
    (h.step (.register index)).age n = if n = index.normalizedName then
      some ((h.age index.normalizedName).getD h.time) else h.age n := by
  rw [History.age, lives_register]
  split <;> rfl

theorem age_remove (h : History) (module n : Text) : (h.step (.remove module)).age n =
      if n = normalizeModuleName module then none else h.age n := by
  rw [History.age, lives_remove]
  split <;> rfl

section

variable (hlisted : Listed s)
include hlisted

theorem Listed.isSome_byName (n : Text) :
    (s.registry.byName n).isSome = (s.history.age n).isSome := by
  rw [hlisted.live, History.age, isSome_map, isSome_map]

theorem Listed.register (index : ModuleExportIndex) :
    Listed ⟨s.registry.register index, s.history.step (.register index)⟩ := by
  have hlive : ∀ n, (s.registry.register index).byName n =
      ((s.history.step (.register index)).lives n).map Life.index := by
    intro n
    rw [register_byName, lives_register, update_apply]
    split
    · rfl
    · exact hlisted.live n
  have hknown := hlisted.isSome_byName index.normalizedName
  refine ⟨fun module => hlive _, hlive, ?_, fun n => ?_, ?_, fun n i hi => ?_, fun b n hb => ?_⟩
  · rw [register_order]
    split
    · exact hlisted.nodup
    · next hnew =>
      refine nodup_append.mpr ⟨hlisted.nodup, nodup_cons.mpr ⟨nofun, .nil⟩, ?_⟩
      rintro n hn _ hmem rfl
      rw [mem_singleton] at hmem
      subst hmem
      exact hnew (hknown.trans ((hlisted.mem _).mp hn))
  · rw [register_order, age_register]
    have hmem := hlisted.mem n
    split <;> split <;> simp_all
  · rw [register_order]
    split
    · next hold =>
      -- the name keeps its age, and so do all others
      obtain ⟨k, hk⟩ := isSome_iff_exists.mp (hknown.symm.trans hold)
      have hsame : ∀ n, (s.history.step (.register index)).age n = s.history.age n := by
        intro n
        rw [age_register, hk]
        split
        · next hn => rw [hn, hk]; rfl
        · rfl
      refine hlisted.aged.imp fun hlt i j => ?_
      rw [hsame, hsame]
      exact hlt i j
    · next hnew =>
      have hnone : s.history.age index.normalizedName = none := by
        rwa [hknown, Bool.not_eq_true, isSome_eq_false_iff, isNone_iff_eq_none] at hnew
      have hne : ∀ n ∈ s.registry.order, n ≠ index.normalizedName := by
        rintro n hn rfl
        rw [hlisted.mem, hnone] at hn
        cases hn
      refine pairwise_append.mpr ⟨hlisted.aged.imp_of_mem fun ha hb hlt i j => ?_,
        pairwise_singleton _ _, fun a ha b hb i j => ?_⟩
      · rw [age_register, age_register, if_neg (hne _ ha), if_neg (hne _ hb)]
        exact hlt i j
      rw [mem_singleton] at hb
      rw [age_register, age_register, if_neg (hne _ ha), if_pos hb, hnone, getD_none,
        Option.some.injEq]
      rintro hi rfl
      exact hlisted.past a i hi
  · rw [age_register] at hi
    have hpast := hlisted.past n
    change i < s.history.time + 1
    split at hi
    · next hn =>
      subst hn
      cases hage : s.history.age index.normalizedName with
      | none =>
        rw [hage] at hi
        cases hi
        exact Nat.lt_succ_self _
      | some j =>
        rw [hage] at hi
        cases hi
        exact Nat.lt_succ_of_lt (hpast _ hage)
    · exact Nat.lt_succ_of_lt (hpast i hi)
  · rw [register_byBase] at hb
    split at hb
    · next hbase =>
      cases hb
      exact ⟨index, by rw [register_byName, update_self], hbase.symm⟩
    split at hb
    · cases hb
    · next hkept =>
      obtain ⟨m, hm, hbase⟩ := hlisted.filed b n hb
      refine ⟨m, ?_, hbase⟩
      rw [register_byName, update_of_ne, hm]
      rintro rfl
      rw [hm, any_some] at hkept
      exact hkept (decide_eq_true hbase)

theorem Listed.remove (module : Text) :
    Listed ⟨(s.registry.remove module).1, s.history.step (.remove module)⟩ := by
  have hlive : ∀ n, (s.registry.remove module).1.byName n =
      ((s.history.step (.remove module)).lives n).map Life.index := by
    intro n
    rw [remove_byName, lives_remove, update_apply]
    split
    · rfl
    · exact hlisted.live n
  have horder : (s.registry.remove module).1.order =
      s.registry.order.erase (normalizeModuleName module) :=
    remove_order module fun n hn => (hlisted.isSome_byName n).trans ((hlisted.mem n).mp hn)
  refine ⟨fun module => hlive _, hlive, ?_, fun n => ?_, ?_, fun n i hi => ?_, fun b n hb => ?_⟩
  · rw [horder]
    exact hlisted.nodup.erase _
  · rw [horder, hlisted.nodup.mem_erase_iff, age_remove, hlisted.mem]
    split <;> simp_all
  · rw [horder]
    refine (hlisted.aged.sublist erase_sublist).imp fun hlt i j hi hj => ?_
    rw [age_remove] at hi hj
    rw [ite_none_left_eq_some] at hi hj
    exact hlt i j hi.2 hj.2
  · rw [age_remove, ite_none_left_eq_some] at hi
    exact Nat.lt_succ_of_lt (hlisted.past n i hi.2)
  · rw [remove_byBase, ite_none_left_eq_some] at hb
    obtain ⟨m, hm, hbase⟩ := hlisted.filed b n hb.2
    refine ⟨m, ?_, hbase⟩
    rw [remove_byName, update_of_ne, hm]
    rintro rfl
    rw [hm, any_some] at hb
    exact hb.1 (decide_eq_true hbase)

theorem Listed.step {op : RegistryOp} (hstep : s.step op = some s') : Listed s' := by
  cases hstep
  cases op with
  | register index => exact hlisted.register index
  | remove module => exact hlisted.remove module

theorem Listed.based_iff : Based s.registry ↔
      ∀ n m, s.registry.byName n = some m → (s.registry.byBase m.base).isSome = true := by
  constructor
  · intro hbased n m hm
    obtain ⟨m', hget, -⟩ := (hbased m.base).mpr ⟨n, m, hm, rfl⟩
    obtain ⟨n', hn', -⟩ := bind_eq_some_iff.mp hget
    rw [hn']
    rfl
  · refine fun hall b => ⟨fun ⟨m, hget, hbase⟩ => ?_, fun ⟨n, m, hm, hbase⟩ => ?_⟩
    · obtain ⟨n, -, hm⟩ := bind_eq_some_iff.mp hget
      exact ⟨n, m, hm, hbase⟩
    · obtain ⟨n', hn'⟩ := isSome_iff_exists.mp (hall n m hm)
      rw [hbase] at hn'
      obtain ⟨m', hm', hbase'⟩ := hlisted.filed b n' hn'
      exact ⟨m', by rw [ExportIndexRegistry.getByBase, hn', bind_some, hm'], hbase'⟩

theorem Listed.based_step_iff {op : RegistryOp} (hbased : Based s.registry)
    (hstep : s.step op = some s') : Based s'.registry ↔ op.Unshared s.registry := by
  rw [(hlisted.step hstep).based_iff]
  rw [hlisted.based_iff] at hbased
  cases hstep
  cases op with
  | register index =>
    refine ⟨fun hall old hold hne n m hn hm hbase => ?_, fun hunshared n m hm => ?_⟩
    · have hfiled := hall n m (by rw [register_byName, update_of_ne hn, hm])
      rw [register_byBase, hbase, if_neg hne, hold, any_some, if_pos (decide_eq_true rfl)] at hfiled
      cases hfiled
    rw [register_byName, update_apply] at hm
    rw [register_byBase]
    split
    · rfl
    · next hne =>
      split at hm
      · cases hm
        exact (hne rfl).elim
      · next hn =>
        rw [if_neg]
        · exact hbased n m hm
        · intro hany
          obtain ⟨old, hold, heq⟩ := (any_eq_true _ _).mp hany
          have hbase := of_decide_eq_true heq
          exact hunshared old hold (hbase ▸ hne) n m hn hm hbase.symm
  | remove module =>
    refine ⟨fun hall old hold n m hn hm hbase => ?_, fun hunshared n m hm => ?_⟩
    · have hfiled := hall n m (by rw [remove_byName, update_of_ne hn, hm])
      rw [remove_byBase, hbase, hold, any_some, if_pos (decide_eq_true rfl)] at hfiled
      cases hfiled
    rw [remove_byName, update_apply, ite_none_left_eq_some] at hm
    rw [remove_byBase, if_neg]
    · exact hbased n m hm.2
    · intro hany
      obtain ⟨old, hold, heq⟩ := (any_eq_true _ _).mp hany
      exact hunshared old hold n m hm.1 hm.2 (of_decide_eq_true heq).symm

end

end Calls

theorem consistent_of_run {ops : List RegistryOp} {s : Registered}
    (hops : Along Registered.step (fun s op => op.Unshared s.registry) .start ops)
    (hrun : run Registered.step .start ops = some s) : Listed s ∧ Based s.registry :=
  run_preserves (fun s => Listed s ∧ Based s.registry)
    (fun _ _ _ hinv hop hstep =>
      ⟨hinv.1.step hstep, (hinv.1.based_step_iff hinv.2 hstep).mpr hop⟩)
    ⟨listed_start, listed_start.based_iff.mpr nofun⟩ hops hrun

def sharedBase : List RegistryOp :=
  [.register ⟨['a'], 1, 0, fun _ => none, []⟩, .register ⟨['b'], 1, 0, fun _ => none, []⟩,
    .remove ['b']]

end Mwemu.Api
