import Mwemu.Maps.View

/-!
# Creating and removing regions

For each operation, what it leaves of a well-formed store: that the store stays well formed, what
happens to the other regions, and when the change is logged. A creation keeps the store well formed
exactly when `Admits` holds: `create_map` itself looks only at the first byte of the new range.
-/

namespace Mwemu

open Mwemu.Lib List Option Mem64 OrdMap

namespace Maps

variable {m m' : Maps}

/-! ### `create_map` -/

/-- No region overlaps `[base, base + size)` or starts at `base`. -/
def Clear (m : Maps) (base size : Nat) : Prop :=
  ∀ key r, m.memSlab.get key = some r →
    ¬ (base < r.bottomAddr ∧ r.baseAddr < base + size) ∧ r.baseAddr ≠ base

/-- A creation that is refused, or whose range is clear. -/
def Admits (m : Maps) (name : String) (base size : Nat) : Prop :=
  m.existsMapname name = true ∨ (∃ key r, m.memSlab.get key = some r ∧ r.inside base = true) ∨
    m.Clear base size

theorem clear_iff (m : Maps) (base size : Nat) : m.Clear base size ↔ ∀ e ∈ m.memSlab.entries,
      ¬ (base < e.2.bottomAddr ∧ e.2.baseAddr < base + size) ∧ e.2.baseAddr ≠ base :=
  ⟨fun hclear e he => hclear e.1 e.2 ((m.memSlab.mem_entries).mp he),
    fun hall key r hget => hall (key, r) ((m.memSlab.mem_entries).mpr hget)⟩

theorem exists_inside_iff (m : Maps) (base : Nat) :
    (∃ key r, m.memSlab.get key = some r ∧ r.inside base = true) ↔
      ∃ e ∈ m.memSlab.entries, e.2.inside base = true :=
  ⟨fun ⟨key, r, hget, hinside⟩ => ⟨(key, r), (m.memSlab.mem_entries).mpr hget, hinside⟩,
    fun ⟨e, he, hinside⟩ => ⟨e.1, e.2, (m.memSlab.mem_entries).mp he, hinside⟩⟩

instance (m : Maps) (base size : Nat) : Decidable (m.Clear base size) :=
  decidable_of_iff _ (m.clear_iff base size).symm

instance (m : Maps) (name : String) (base size : Nat) : Decidable (m.Admits name base size) :=
  have : Decidable (∃ key r, m.memSlab.get key = some r ∧ r.inside base = true) :=
    decidable_of_iff _ (m.exists_inside_iff base).symm
  inferInstanceAs (Decidable (_ ∨ _ ∨ _))

def inserted (m : Maps) (tlb : Tlb) (r : Mem64) : Maps :=
  { m with
    memSlab := m.memSlab.insert r
    nameMap := Function.update m.nameMap r.memName (some m.memSlab.nextKey)
    maps := m.maps.insert r.baseAddr m.memSlab.nextKey
    tlb := tlb }

def created (m : Maps) (tlb : Tlb) (r : Mem64) : Maps :=
  if r.canExecute then (m.inserted tlb r).noteCodeWrite r.baseAddr r.size else m.inserted tlb r

theorem created_eq (m : Maps) (tlb : Tlb) (r : Mem64) :
    ∃ log, m.created tlb r = { m.inserted tlb r with codeWrites := log } := by
  rw [created]
  split
  · exact noteCodeWrite_eq _ _ _
  · exact ⟨m.codeWrites, rfl⟩

theorem freshMem_size (name : String) (base size : Nat) (permission : Permission) :
    (freshMem name base size permission).size = size :=
  length_replicate

theorem freshMem_baseAddr (name : String) (base size : Nat) (permission : Permission) :
    (freshMem name base size permission).baseAddr = base :=
  rfl

theorem Wf.createMap_cases (hwf : m.Wf) (name : String) (base size : Nat)
    (permission : Permission) :
    ((m.existsMapname name = true ∨ ∃ found, m.searchMaps base = some found) ∧
      ∃ tlb msg, m.createMap name base size permission = ({ m with tlb := tlb }, .error msg)) ∨
    (m.searchMaps base = none ∧ m.nameMap name = none ∧
      ∃ tlb, m.createMap name base size permission =
        (m.created tlb (freshMem name base size permission), .ok m.memSlab.nextKey)) := by
  obtain ⟨tlb, hlookup⟩ := hwf.getMemByAddrMut_eq base
  rw [createMap, hlookup]
  cases hfound : m.searchMaps base with
  | some found => exact .inl ⟨.inr ⟨found, rfl⟩, tlb, _, rfl⟩
  | none =>
    cases hname : m.nameMap name with
    | some key =>
      have hexists : m.existsMapname name = true := by rw [existsMapname, hname]; rfl
      refine .inl ⟨.inl hexists, tlb, "this map name " ++ name ++ " already exists!", ?_⟩
      simp [existsMapname, hname]
    | none =>
      refine .inr ⟨rfl, rfl, tlb.flush, ?_⟩
      simp only [existsMapname, hname, isSome_none, Bool.false_eq_true, if_false]
      rw [created, freshMem_size]
      rfl

variable {r : Mem64}

theorem Wf.changes_created (hwf : m.Wf) (tlb : Tlb) (hname : m.nameMap r.memName = none)
    (hclear : m.Clear r.baseAddr r.size) (hsized : r.bottomAddr = r.baseAddr + r.size)
    (hbounded : r.bottomAddr ≤ u64Max) :
    Changes m (m.created tlb r) m.memSlab.nextKey (some r) := by
  obtain ⟨log, hlog⟩ := m.created_eq tlb r
  rw [hlog]
  refine hwf.changes_insert rfl rfl rfl hname (fun k other hget => ?_) hsized hbounded
  obtain ⟨hdisjoint, hbase⟩ := hclear k other hget
  rw [overlaps_eq_false, hsized]
  exact ⟨hdisjoint, hbase⟩

theorem Wf.logged_created (hwf : m.Wf) {tlb : Tlb} (hsized : r.bottomAddr = r.baseAddr + r.size)
    (hchanges : Changes m (m.created tlb r) m.memSlab.nextKey (some r)) :
    Logged m (m.created tlb r) := by
  refine hchanges.logged hwf ?_ (fun x hne => ?_)
  · rw [created]
    split
    · exact LogGrows.noteCodeWrite (m.inserted tlb r) r.baseAddr r.size
    · exact .of_eq rfl
  rw [m.memSlab.get_nextKey, bind_some, bind_none] at hne
  have hinside : r.inside x = true := by
    by_contra hinside
    exact hne (codeAt_of_not_inside hinside)
  have hexec : r.canExecute = true := by
    by_contra hexec
    exact hne (codeAt_of_not_canExecute (by simpa using hexec) x)
  rw [created, if_pos hexec]
  rw [inside_eq_true, hsized] at hinside
  exact covered_noteCodeWrite hinside

/-- What a creation guarantees on a well-formed store that admits it. -/
structure Creates (m m' : Maps) (r : Mem64) (result : Except String Nat) : Prop where
  wf : m'.Wf
  logged : Logged m m'
  frame : ∀ key r', m.memSlab.get key = some r' → m'.memSlab.get key = some r'
  ok : ∀ key, result = .ok key →
    Changes m m' key (some r) ∧ m.memSlab.get key = none ∧ m.nameMap r.memName = none
  error : ∀ msg, result = .error msg → m'.memSlab = m.memSlab ∧ m'.maps = m.maps ∧
    (m.existsMapname r.memName = true ∨ ∃ found, m.searchMaps r.baseAddr = some found)

theorem Wf.createMap (hwf : m.Wf) {name : String} {base size : Nat} (permission : Permission)
    (hbound : base + size ≤ u64Max) (hadmits : m.Admits name base size) :
    Creates m (m.createMap name base size permission).1 (freshMem name base size permission)
      (m.createMap name base size permission).2 := by
  rcases hwf.createMap_cases name base size permission with
    ⟨hrefused, tlb, msg, hcreate⟩ | ⟨hfound, hname, tlb, hcreate⟩
  · rw [hcreate]
    exact ⟨hwf.congr rfl rfl rfl, Logged.of_eq rfl rfl rfl, fun _ _ hget => hget,
      fun _ hok => (nomatch hok), fun _ _ => ⟨rfl, rfl, hrefused⟩⟩
  have hclear : m.Clear base size := by
    rcases hadmits with hexists | ⟨key, r, hget, hinside⟩ | hclear
    · rw [existsMapname, hname] at hexists
      cases hexists
    · rw [hwf.searchMaps_eq_some.mpr ⟨hget, hinside⟩] at hfound
      cases hfound
    · exact hclear
  rw [hcreate]
  have hsize := freshMem_size name base size permission
  have hsized : (freshMem name base size permission).bottomAddr =
      (freshMem name base size permission).baseAddr +
        (freshMem name base size permission).size := by
    rw [hsize]
    rfl
  have hchanges := hwf.changes_created tlb (r := freshMem name base size permission)
    hname (hsize.symm ▸ hclear) hsized hbound
  refine ⟨hchanges.wf hwf, hwf.logged_created hsized hchanges, fun key r' hget => ?_, ?_,
    fun _ herror => nomatch herror⟩
  · rw [hchanges.get_of_ne, hget]
    rintro rfl
    rw [m.memSlab.get_nextKey] at hget
    cases hget
  · rintro _ ⟨⟩
    exact ⟨hchanges, m.memSlab.get_nextKey, hname⟩

theorem Wf.createMap_wf_iff (hwf : m.Wf) {name : String} {base size : Nat} (permission : Permission)
    (hbound : base + size ≤ u64Max) :
    (m.createMap name base size permission).1.Wf ↔ m.Admits name base size := by
  refine ⟨fun hwf' => ?_, fun hadmits => (hwf.createMap permission hbound hadmits).wf⟩
  rcases hwf.createMap_cases name base size permission with
    ⟨hexists | ⟨⟨key, r⟩, hfound⟩, -⟩ | ⟨hfound, hname, tlb, hcreate⟩
  · exact .inl hexists
  · exact .inr (.inl ⟨key, r, hwf.searchMaps_eq_some.mp hfound⟩)
  refine .inr (.inr fun key r hget => ?_)
  rw [hcreate] at hwf'
  obtain ⟨log, hlog⟩ := m.created_eq tlb (freshMem name base size permission)
  have hne : m.memSlab.nextKey ≠ key := by
    rintro rfl
    rw [m.memSlab.get_nextKey] at hget
    cases hget
  have hslab : ∀ k, (m.created tlb (freshMem name base size permission)).memSlab.get k =
      if k = m.memSlab.nextKey then some (freshMem name base size permission)
      else m.memSlab.get k := by
    rw [hlog]
    exact m.memSlab.get_insert _
  have hnew := (hslab m.memSlab.nextKey).trans (if_pos rfl)
  have hold := ((hslab key).trans (if_neg (Ne.symm hne))).trans hget
  refine ⟨?_, fun hbase => hne ?_⟩
  · exact overlaps_eq_false.mp (hwf'.disjoint _ _ _ _ hnew hold hne)
  · exact (hwf'.eq_of_baseAddr hnew hold hbase.symm).1

/-! ### `free` and `dealloc` -/

theorem Wf.free (hwf : m.Wf) (name : String) : (m.free name).Wf ∧
      ((∀ key r, m.nameMap name = some key → m.memSlab.get key = some r → r.canExecute = false) →
        Logged m (m.free name)) := by
  rw [Maps.free]
  cases hname : m.nameMap name with
  | none => exact ⟨hwf, fun _ => Logged.refl m⟩
  | some key =>
    obtain ⟨r, hget, rfl⟩ := (hwf.named name key).mp hname
    simp only [hget]
    have hchanges : Changes m
        { m with
          maps := m.maps.remove r.baseAddr
          memSlab := m.memSlab.remove key
          tlb := m.tlb.flush
          nameMap := Function.update m.nameMap r.memName none } key none :=
      hwf.changes_remove hget rfl rfl rfl
    refine ⟨hchanges.wf hwf, fun hexec => hchanges.logged hwf (.of_eq rfl) fun x hne => ?_⟩
    rw [hget, bind_some, bind_none, codeAt_of_not_canExecute (hexec key r rfl hget)] at hne
    exact absurd rfl hne

variable {addr key : Nat}

theorem dealloc_of_get (hkey : m.maps.get addr = some key) (hget : m.memSlab.get key = some r) :
    ∃ log, m.dealloc addr = { m with
          nameMap := Function.update m.nameMap r.memName none
          memSlab := m.memSlab.remove key
          tlb := m.tlb.flush
          maps := m.maps.remove addr
          codeWrites := log } ∧
      log = if r.canExecute then (m.noteCodeWrite r.baseAddr r.size).codeWrites
        else m.codeWrites := by
  rw [dealloc, hkey]
  simp only [hget]
  split
  · obtain ⟨log, hlog⟩ := noteCodeWrite_eq
      { m with nameMap := Function.update m.nameMap r.memName none } r.baseAddr r.size
    rw [hlog]
    refine ⟨log, rfl, ?_⟩
    have hcongr : (noteCodeWrite { m with nameMap := Function.update m.nameMap r.memName none }
        r.baseAddr r.size).codeWrites = (m.noteCodeWrite r.baseAddr r.size).codeWrites := by
      rw [noteCodeWrite, noteCodeWrite]
      split <;> [rfl; split <;> rfl]
    rw [← hcongr, hlog]
  · exact ⟨m.codeWrites, rfl, rfl⟩

theorem Wf.dealloc_of_get (hwf : m.Wf) (hget : m.memSlab.get key = some r) :
    Changes m (m.dealloc r.baseAddr) key none ∧ Logged m (m.dealloc r.baseAddr) := by
  have hkey := hwf.get_baseAddr hget
  obtain ⟨log, hdealloc, hlog⟩ := Maps.dealloc_of_get hkey hget
  have hchanges : Changes m (m.dealloc r.baseAddr) key none := by
    rw [hdealloc]
    exact hwf.changes_remove hget rfl rfl rfl
  have hlog' : (m.dealloc r.baseAddr).codeWrites = log := by rw [hdealloc]
  refine ⟨hchanges, hchanges.logged hwf ?_ fun x hne => ?_⟩
  · split at hlog
    · exact (LogGrows.noteCodeWrite m r.baseAddr r.size).trans (.of_eq (hlog'.trans hlog))
    · exact .of_eq (hlog'.trans hlog)
  rw [hget, bind_some, bind_none] at hne
  have hexec : r.canExecute = true := by
    by_contra hexec
    exact hne (codeAt_of_not_canExecute (by simpa using hexec) x).symm
  have hinside : r.inside x = true := by
    by_contra hinside
    exact hne (codeAt_of_not_inside hinside).symm
  rw [if_pos hexec] at hlog
  rw [inside_eq_true, hwf.sized key r hget] at hinside
  rw [covered_congr (hlog'.trans hlog)]
  exact covered_noteCodeWrite hinside

theorem Wf.dealloc (hwf : m.Wf) (addr : Nat) : (m.dealloc addr).Wf ∧ Logged m (m.dealloc addr) := by
  cases hkey : m.maps.get addr with
  | none =>
    rw [Maps.dealloc, hkey]
    exact ⟨hwf, Logged.refl m⟩
  | some key =>
    obtain ⟨r, hget, rfl⟩ := (hwf.based addr key).mp (get_eq_some.mp hkey)
    obtain ⟨hchanges, hlogged⟩ := hwf.dealloc_of_get hget
    exact ⟨hchanges.wf hwf, hlogged⟩

/-! ### `unmap_range` -/

/-- The range `[addr, stop)` takes all of the region or the region holds no code. -/
def SparesCode (addr stop : Nat) (r : Mem64) : Prop :=
  r.canExecute = true → addr ≤ r.baseAddr ∧ r.bottomAddr ≤ stop

/-- If the range splits the region, the name of the new region for the tail is not taken. -/
def KeepsTail (m : Maps) (addr stop : Nat) (r : Mem64) : Prop :=
  r.baseAddr < addr → stop < r.bottomAddr → m.nameMap (r.memName ++ "_" ++ hex stop) = none

/-- What the loop of `unmap_range` does to one region: it takes the range out of it, and all that
lies behind the range too if the tail is not kept. -/
structure Serves (m m' : Maps) (addr stop key : Nat) (r : Mem64) : Prop where
  wf : m'.Wf
  frame : ∀ k r', k ≠ key → m.memSlab.get k = some r' → m'.memSlab.get k = some r'
  logged : SparesCode addr stop r → Logged m m'
  view : ∀ x v, m'.viewAt x = some v ↔ m.viewAt x = some v ∧
    (r.inside x = true → x < addr ∨ stop ≤ x ∧ m.KeepsTail addr stop r)

variable {stop : Nat}

section

variable (hwf : m.Wf)
include hwf

section

variable (hget : m.memSlab.get key = some r)
include hget

theorem Wf.unmapOne_front
    (hbase : addr ≤ r.baseAddr) (hlow : r.baseAddr < stop) (hhigh : stop < r.bottomAddr) :
    ∃ m', unmapOne addr stop m r.baseAddr = some m' ∧ m'.codeWrites = m.codeWrites ∧
      Changes m m' key
        (some { r with mem := r.mem.drop (stop - r.baseAddr), baseAddr := stop }) := by
  have hkey := hwf.get_baseAddr hget
  have hsized := hwf.sized key r hget
  rw [Mem64.size] at hsized
  have hdrop : r.dropFront (stop - r.baseAddr) =
      some { r with mem := r.mem.drop (stop - r.baseAddr), baseAddr := stop } := by
    have hstop : r.baseAddr + (stop - r.baseAddr) = stop := by omega
    rw [Mem64.dropFront, if_pos (by omega), hstop]
  refine ⟨{ m with
    memSlab := m.memSlab.set key { r with mem := r.mem.drop (stop - r.baseAddr), baseAddr := stop }
    maps := (m.maps.remove r.baseAddr).insert stop key }, ?_, rfl, ?_⟩
  · simp only [unmapOne, hkey, hget, bind_eq_bind, bind_some, hdrop]
    rw [if_neg (by omega), if_pos hbase]
  · refine hwf.changes_moved hget rfl rfl rfl rfl hlow hhigh rfl ?_
    simp only [Mem64.size, length_drop]
    omega

theorem Wf.changes_truncate (hbase : r.baseAddr < addr) (haddr : addr < r.bottomAddr) :
    Changes m { m with memSlab := m.memSlab.set key (r.truncate (addr - r.baseAddr)) } key
      (some (r.truncate (addr - r.baseAddr))) := by
  have hsized := hwf.sized key r hget
  rw [Mem64.size] at hsized
  refine hwf.changes_set hget rfl rfl rfl rfl rfl ?_ ?_
  · simp only [Mem64.truncate]
    omega
  · simp only [Mem64.truncate, Mem64.size, length_take]
    omega

theorem Wf.unmapOne_back
    (hbase : r.baseAddr < addr) (haddr : addr < r.bottomAddr) (hbottom : r.bottomAddr ≤ stop) :
    ∃ m', unmapOne addr stop m r.baseAddr = some m' ∧ m'.codeWrites = m.codeWrites ∧
      Changes m m' key (some (r.truncate (addr - r.baseAddr))) := by
  have hchanges := hwf.changes_truncate hget hbase haddr
  refine ⟨_, ?_, by rfl, hchanges⟩
  simp only [unmapOne, hwf.get_baseAddr hget, hget, bind_eq_bind, bind_some]
  rw [if_neg (by omega), if_neg (by omega), if_pos hbottom]

def tailMem (name : String) (stop : Nat) (tail : List UInt8) (permission : Permission) : Mem64 :=
  { memName := name ++ "_" ++ hex stop, baseAddr := stop, bottomAddr := stop + tail.length
    permission := permission, mem := tail }

omit hget in
omit hwf in
theorem forceWriteBytes_freshMem (name : String) (stop : Nat) (tail : List UInt8)
    (permission : Permission) :
    (freshMem (name ++ "_" ++ hex stop) stop tail.length permission).forceWriteBytes stop tail =
      some (tailMem name stop tail permission) := by
  have hlen := freshMem_size (name ++ "_" ++ hex stop) stop tail.length permission
  have hbase := freshMem_baseAddr (name ++ "_" ++ hex stop) stop tail.length permission
  rw [forceWriteBytes_eq (by omega) (by omega), hbase]
  rw [Mem64.size] at hlen
  unfold tailMem Mem64.copyAt
  rw [Nat.sub_self, take_zero, nil_append, drop_of_length_le (by omega), append_nil]
  rfl

omit hget in
theorem Wf.recreateTail (name : String) {tail : List UInt8} (permission : Permission)
    (hclear : m.Clear stop tail.length) (hbound : stop + tail.length ≤ u64Max)
    (hsome : 0 < tail.length) : ∃ m', m.recreateTail name stop tail permission = some m' ∧ m'.Wf ∧
      (∀ k r, m.memSlab.get k = some r → m'.memSlab.get k = some r) ∧
      (permission.execute = false → Logged m m') ∧
      ∀ x v, m'.viewAt x = some v ↔ m.viewAt x = some v ∨
        m.nameMap (name ++ "_" ++ hex stop) = none ∧
          (tailMem name stop tail permission).viewAt x = some v := by
  have hadmits : m.Admits (name ++ "_" ++ hex stop) stop tail.length := .inr (.inr hclear)
  have hcreates := hwf.createMap permission hbound hadmits
  rw [Maps.recreateTail]
  generalize m.createMap (name ++ "_" ++ hex stop) stop tail.length permission = result
    at hcreates ⊢
  obtain ⟨m₁, result⟩ := result
  cases result with
  | error msg =>
    obtain ⟨hslab, hmaps, hrefused⟩ := hcreates.error msg rfl
    have htaken : m.nameMap (name ++ "_" ++ hex stop) ≠ none := by
      rcases hrefused with hexists | ⟨⟨k, r⟩, hfound⟩
      · exact isSome_iff_ne_none.mp hexists
      -- the range of the tail is clear, so it is the name
      obtain ⟨hget, hinside⟩ := hwf.searchMaps_eq_some.mp hfound
      rw [inside_eq_true, freshMem_baseAddr] at hinside
      have hdisjoint := hclear k r hget
      omega
    refine ⟨m₁, rfl, hcreates.wf, hcreates.frame, fun _ => hcreates.logged, fun x v => ?_⟩
    rw [viewAt_congr hslab hmaps]
    exact ⟨.inl, fun h => h.resolve_right fun ⟨hname, _⟩ => htaken hname⟩
  | ok key =>
    obtain ⟨hcreated, hvacant, hname⟩ := hcreates.ok key rfl
    have hget := hcreated.get_self
    simp only [hget, bind_eq_bind, bind_some, forceWriteBytes_freshMem]
    have hchanges : Changes m₁
        { m₁ with memSlab := m₁.memSlab.set key (tailMem name stop tail permission) } key
        (some (tailMem name stop tail permission)) :=
      hcreates.wf.changes_set hget rfl rfl rfl rfl rfl (Nat.le_refl _) rfl
    refine ⟨_, rfl, hchanges.wf hcreates.wf, fun k r hget' => ?_, fun hexec => ?_, fun x v => ?_⟩
    · rw [hchanges.get_of_ne]
      · exact hcreates.frame k r hget'
      · rintro rfl
        rw [hvacant] at hget'
        cases hget'
    · refine hcreates.logged.trans ?_
      exact hchanges.logged_of_not_canExecute hcreates.wf hget hexec hexec rfl
    rw [(hcreated.trans hchanges).viewAt_eq_some hwf, hwf.viewAt_eq_some, or_comm]
    refine or_congr ⟨?_, ?_⟩ ?_
    · rintro ⟨k, r, -, hget', hview⟩
      exact ⟨k, r, hget', hview⟩
    · rintro ⟨k, r, hget', hview⟩
      refine ⟨k, r, ?_, hget', hview⟩
      rintro rfl
      rw [hvacant] at hget'
      cases hget'
    · rw [show m.nameMap (name ++ "_" ++ hex stop) = none from hname]
      simp

theorem Wf.unmapOne_middle
    (hbase : r.baseAddr < addr) (haddr : addr ≤ stop) (hstop : stop < r.bottomAddr) :
    ∃ m', unmapOne addr stop m r.baseAddr = some m' ∧ Serves m m' addr stop key r := by
  have hkey := hwf.get_baseAddr hget
  have hsized := hwf.sized key r hget
  have hbounded := hwf.bounded key r hget
  rw [Mem64.size] at hsized
  have hsplit : r.splitOff stop =
      some (r.truncate (stop - r.baseAddr), r.mem.drop (stop - r.baseAddr)) := by
    have hcut : r.baseAddr + (stop - r.baseAddr) = stop := by omega
    rw [Mem64.splitOff, if_pos (by omega), Mem64.truncate, hcut]
  have hcut : (r.truncate (stop - r.baseAddr)).truncate (addr - r.baseAddr) =
      r.truncate (addr - r.baseAddr) := by
    have hle : addr - r.baseAddr ≤ stop - r.baseAddr := by omega
    simp only [Mem64.truncate, take_take, Nat.min_eq_left hle]
  simp only [unmapOne, hkey, hget, bind_eq_bind, bind_some, hsplit, hcut]
  rw [if_neg (by omega), if_neg (by omega), if_neg (by omega)]
  have hchanges := hwf.changes_truncate hget hbase (show addr < r.bottomAddr by omega)
  have hfrontView : ∀ x v, (∃ r', some (r.truncate (addr - r.baseAddr)) = some r' ∧
      r'.viewAt x = some v) ↔ r.viewAt x = some v ∧ x < addr := by
    intro x v
    simp only [Option.some.injEq, exists_eq_left']
    rw [viewAt_truncate (by omega), show r.baseAddr + (addr - r.baseAddr) = addr by omega]
  -- the range of the tail was inside the old region
  have htailView : ∀ x v, (tailMem r.memName stop (r.mem.drop (stop - r.baseAddr))
      r.permission).viewAt x = some v ↔ r.viewAt x = some v ∧ stop ≤ x :=
    viewAt_dropped (by simp only [tailMem]; omega)
      (by simp only [tailMem, length_drop]; omega) rfl rfl
  generalize htail : r.mem.drop (stop - r.baseAddr) = tail at htailView ⊢
  have htailLen : stop + tail.length = r.bottomAddr := by
    rw [← htail, length_drop]
    omega
  have hclear : Clear { m with memSlab := m.memSlab.set key (r.truncate (addr - r.baseAddr)) }
      stop tail.length := by
    intro k other hother
    by_cases hk : k = key
    · subst hk
      obtain rfl := Option.some.inj (hchanges.get_self.symm.trans hother)
      simp only [Mem64.truncate]
      omega
    · rw [hchanges.get_of_ne hk] at hother
      have hdisjoint := overlaps_eq_false.mp (hwf.disjoint key k r other hget hother (Ne.symm hk))
      have hother' := hwf.sized k other hother
      omega
  obtain ⟨m', hm', hwf', hframe, hlogged, hview⟩ :=
    (hchanges.wf hwf).recreateTail r.memName r.permission hclear (by omega) (by omega)
  refine ⟨m', hm', hwf', fun k r' hne hget' => ?_, fun hspares => ?_, fun x v => ?_⟩
  · exact hframe k r' ((hchanges.get_of_ne hne).trans hget')
  · have hexec : r.canExecute = false := by
      by_contra hexec
      have hall := hspares (by simpa using hexec)
      omega
    exact (hchanges.logged_of_not_canExecute hwf hget hexec hexec rfl).trans (hlogged hexec)
  · have hkeeps : m.KeepsTail addr stop r ↔ m.nameMap (r.memName ++ "_" ++ hex stop) = none :=
      ⟨fun hkeeps => hkeeps hbase hstop, fun hname _ _ => hname⟩
    rw [hview, htailView, hchanges.viewAt_cut hwf hget hfrontView, hkeeps]
    constructor
    · rintro (⟨hold, hbefore⟩ | ⟨hname, hold, hbehind⟩)
      · exact ⟨hold, fun hinside => .inl (hbefore hinside)⟩
      · have hinside := inside_of_viewAt hold
        exact ⟨(hwf.viewAt_of_inside hget hinside).trans hold, fun _ => .inr ⟨hbehind, hname⟩⟩
    rintro ⟨hold, hspared⟩
    by_cases hinside : r.inside x = true
    · rcases hspared hinside with hbefore | ⟨hbehind, hname⟩
      · exact .inl ⟨hold, fun _ => hbefore⟩
      · exact .inr ⟨hname, (hwf.viewAt_of_inside hget hinside).symm.trans hold, hbehind⟩
    · exact .inl ⟨hold, fun hinside' => absurd hinside' hinside⟩

theorem Wf.serves_cut {r' : Mem64}
    (hchanges : Changes m m' key (some r')) (hpermission : r'.permission = r.permission)
    (hlog : m'.codeWrites = m.codeWrites) (hpart : ¬ (addr ≤ r.baseAddr ∧ r.bottomAddr ≤ stop))
    (hview : ∀ x v, (∃ r'', some r' = some r'' ∧ r''.viewAt x = some v) ↔
      r.viewAt x = some v ∧ (x < addr ∨ stop ≤ x ∧ m.KeepsTail addr stop r)) :
    Serves m m' addr stop key r := by
  refine ⟨hchanges.wf hwf, fun k other hne hget' => ?_, fun hspares => ?_,
    hchanges.viewAt_cut hwf hget hview⟩
  · rw [hchanges.get_of_ne hne, hget']
  -- a region that is cut and spared holds no code, before or after
  have hexec : r.canExecute = false := by
    by_contra hexec
    exact hpart (hspares (by simpa using hexec))
  have hexec' : r'.canExecute = false := by
    rw [Mem64.canExecute, hpermission]
    exact hexec
  exact hchanges.logged_of_not_canExecute hwf hget hexec hexec' hlog

theorem Wf.unmapOne (hlow : r.baseAddr < stop) (hhigh : addr < r.bottomAddr) (hle : addr ≤ stop) :
    ∃ m', unmapOne addr stop m r.baseAddr = some m' ∧ Serves m m' addr stop key r := by
  have hkey := hwf.get_baseAddr hget
  by_cases hall : addr ≤ r.baseAddr ∧ r.bottomAddr ≤ stop
  · obtain ⟨hchanges, hlogged⟩ := hwf.dealloc_of_get hget
    refine ⟨m.dealloc r.baseAddr, ?_, hchanges.wf hwf, fun k r' hne hget' => ?_, fun _ => hlogged,
      hchanges.viewAt_cut hwf hget fun x v => ?_⟩
    · simp only [Maps.unmapOne, hkey, hget, bind_eq_bind, bind_some]
      rw [if_pos hall]
    · rw [hchanges.get_of_ne hne, hget']
    · refine ⟨fun ⟨_, hnone, _⟩ => (nomatch hnone), fun ⟨hview, hspared⟩ => ?_⟩
      have hinside := inside_eq_true.mp (inside_of_viewAt hview)
      omega
  · by_cases hfront : addr ≤ r.baseAddr
    · obtain ⟨m', hm', hlog, hchanges⟩ := hwf.unmapOne_front hget hfront hlow (by omega)
      refine ⟨m', hm', hwf.serves_cut hget hchanges rfl hlog hall fun x v => ?_⟩
      have hkeeps : m.KeepsTail addr stop r := fun hbase _ => absurd hbase (by omega)
      have hdropped : Mem64.viewAt { r with
            mem := r.mem.drop (stop - r.baseAddr), baseAddr := stop } x = some v ↔
          r.viewAt x = some v ∧ stop ≤ x := by
        apply viewAt_dropped
        · exact Nat.le_of_lt hlow
        · rfl
        · rfl
        · rfl
      simp only [Option.some.injEq, exists_eq_left']
      rw [hdropped]
      refine and_congr_right fun hview => ⟨fun hbehind => .inr ⟨hbehind, hkeeps⟩, fun hspared => ?_⟩
      have hinside := inside_eq_true.mp (inside_of_viewAt hview)
      rcases hspared with hbefore | ⟨hbehind, -⟩
      · omega
      · exact hbehind
    · by_cases hback : r.bottomAddr ≤ stop
      · obtain ⟨m', hm', hlog, hchanges⟩ := hwf.unmapOne_back hget (by omega) hhigh hback
        refine ⟨m', hm', hwf.serves_cut hget hchanges rfl hlog hall fun x v => ?_⟩
        simp only [Option.some.injEq, exists_eq_left']
        rw [viewAt_truncate (by omega)]
        refine and_congr_right fun hview => ?_
        have hinside := inside_eq_true.mp (inside_of_viewAt hview)
        omega
      · exact hwf.unmapOne_middle hget (by omega) hle (by omega)

end

theorem Wf.keepsTail_of_ne {k₁ k₂ : Nat} {r₁ r₂ : Mem64}
    (h₁ : m.memSlab.get k₁ = some r₁) (h₂ : m.memSlab.get k₂ = some r₂) (hne : k₁ ≠ k₂)
    (hlow : r₁.baseAddr < stop) (hhigh : addr < r₁.bottomAddr) (m' : Maps) :
    m'.KeepsTail addr stop r₂ := by
  intro hbase hbottom
  have hdisjoint := overlaps_eq_false.mp (hwf.disjoint k₁ k₂ r₁ r₂ h₁ h₂ hne)
  omega

omit hwf in
theorem Wf.unmapRange_loop (hle : addr ≤ stop) :
    ∀ (bases : List Nat) (m : Maps), m.Wf → bases.Nodup →
      (∀ base ∈ bases, ∃ key r, m.memSlab.get key = some r ∧ r.baseAddr = base ∧
        base < stop ∧ addr < r.bottomAddr) →
      ∃ m', bases.foldlM (Maps.unmapOne addr stop) m = some m' ∧ m'.Wf ∧
        ((∀ key r, m.memSlab.get key = some r → r.baseAddr ∈ bases → SparesCode addr stop r) →
          Logged m m') ∧ ∀ x v, m'.viewAt x = some v ↔ m.viewAt x = some v ∧
          ∀ key r, m.memSlab.get key = some r → r.baseAddr ∈ bases → r.inside x = true →
            x < addr ∨ stop ≤ x ∧ m.KeepsTail addr stop r := by
  intro bases
  induction bases with
  | nil => exact fun m hwf _ _ => ⟨m, rfl, hwf, fun _ => Logged.refl m, by simp⟩
  | cons base bases ih =>
    intro m hwf hnodup hwaiting
    obtain ⟨hhead, hnodup'⟩ := nodup_cons.mp hnodup
    obtain ⟨key, r, hget, rfl, hlow, hhigh⟩ := hwaiting base mem_cons_self
    obtain ⟨m₁, hm₁, hserves⟩ := hwf.unmapOne hget hlow hhigh hle
    -- the keys of the waiting regions are not the one just served
    have hother : ∀ k r', m.memSlab.get k = some r' → r'.baseAddr ∈ bases → k ≠ key := by
      rintro k r' hget' hmem rfl
      obtain rfl := Option.some.inj (hget.symm.trans hget')
      exact hhead hmem
    have hwait : ∀ k r', m₁.memSlab.get k = some r' → r'.baseAddr ∈ bases →
        m.memSlab.get k = some r' := by
      intro k r' hget' hmem
      obtain ⟨k₀, r₀, hget₀, hbase₀, -⟩ := hwaiting _ (mem_cons_of_mem _ hmem)
      have hget₁ := hserves.frame k₀ r₀ (hother k₀ r₀ hget₀ (hbase₀ ▸ hmem)) hget₀
      obtain ⟨rfl, rfl⟩ := hserves.wf.eq_of_baseAddr hget₁ hget' hbase₀
      exact hget₀
    obtain ⟨m', hm', hwf', hlogged, hview⟩ := ih m₁ hserves.wf hnodup' fun b hb => by
      obtain ⟨k, r', hget', rfl, hlow', hhigh'⟩ := hwaiting b (mem_cons_of_mem _ hb)
      exact ⟨k, r', hserves.frame k r' (hother k r' hget' hb) hget', rfl, hlow', hhigh'⟩
    refine ⟨m', ?_, hwf', fun hspares => ?_, fun x v => ?_⟩
    · rw [foldlM_cons, hm₁]
      exact hm'
    · refine (hserves.logged (hspares key r hget mem_cons_self)).trans ?_
      exact hlogged fun k r' hget' hb =>
        hspares k r' (hwait k r' hget' hb) (mem_cons_of_mem _ hb)
    rw [hview, hserves.view, and_assoc]
    refine and_congr_right fun _ => ⟨?_, ?_⟩
    · rintro ⟨hhere, hrest⟩ k r' hget' hmem hinside
      rcases mem_cons.mp hmem with hbase | hmem
      · obtain ⟨rfl, rfl⟩ := hwf.eq_of_baseAddr hget' hget hbase
        exact hhere hinside
      · have hne := hother k r' hget' hmem
        refine (hrest k r' (hserves.frame k r' hne hget') hmem hinside).imp_right fun h => ?_
        exact ⟨h.1, hwf.keepsTail_of_ne hget hget' (Ne.symm hne) hlow hhigh m⟩
    · intro hall
      refine ⟨hall key r hget mem_cons_self, fun k r' hget' hmem hinside => ?_⟩
      have hget₀ := hwait k r' hget' hmem
      refine (hall k r' hget₀ (mem_cons_of_mem _ hmem) hinside).imp_right fun h => ?_
      have hne := hother k r' hget₀ hmem
      exact ⟨h.1, hwf.keepsTail_of_ne hget hget₀ (Ne.symm hne) hlow hhigh m₁⟩

theorem Wf.overlapping (addr stop : Nat) :
    ∃ bases, m.overlapping addr stop = some bases ∧ bases.Nodup ∧
      ∀ base, base ∈ bases ↔ ∃ key r, m.memSlab.get key = some r ∧ r.baseAddr = base ∧
        base < stop ∧ addr < r.bottomAddr := by
  have hlive : ∀ entry ∈ m.maps.range 0 stop, (m.memSlab.get entry.2).isSome := by
    rintro ⟨base, key⟩ hentry
    obtain ⟨r, hget, -⟩ := (hwf.based base key).mp (mem_range.mp hentry).1
    rw [hget]
    rfl
  refine ⟨_, if_pos (all_eq_true.mpr hlive), ?_, fun base => ?_⟩
  · refine List.Pairwise.map _ (fun _ _ hlt => ?_) ((range_sorted 0 stop).filter _)
    exact Nat.ne_of_lt hlt
  rw [List.mem_map]
  constructor
  · rintro ⟨⟨base', key⟩, hentry, rfl⟩
    rw [mem_filter, OrdMap.mem_range] at hentry
    obtain ⟨r, hget, hbase⟩ := (hwf.based base' key).mp hentry.1.1
    refine ⟨key, r, hget, hbase, hentry.1.2.2, ?_⟩
    simpa [hget] using hentry.2
  · rintro ⟨key, r, hget, hbase, hlow, hhigh⟩
    refine ⟨(base, key), ?_, rfl⟩
    rw [mem_filter, OrdMap.mem_range]
    refine ⟨⟨(hwf.based base key).mpr ⟨r, hget, hbase⟩, Nat.zero_le _, hlow⟩, ?_⟩
    simpa [hget] using hhigh

/-- `unmap_range` never panics on a well-formed store. It logs what it removes if it cuts no
executable region in part, and shows what it spares if no region that it splits loses its tail. -/
theorem Wf.unmapRange_spec {len : Nat} (hbound : addr + len < 2 ^ 64) :
    ∃ m', m.unmapRange addr len = some m' ∧ m'.Wf ∧
      ((∀ key r, m.memSlab.get key = some r → r.baseAddr < addr + len → addr < r.bottomAddr →
        SparesCode addr (addr + len) r) → Logged m m') ∧
      ∀ x v, m'.viewAt x = some v ↔ m.viewAt x = some v ∧
        ∀ key r, m.memSlab.get key = some r → r.baseAddr < addr + len → addr < r.bottomAddr →
          r.inside x = true → x < addr ∨ addr + len ≤ x ∧ m.KeepsTail addr (addr + len) r := by
  obtain ⟨bases, hbases, hnodup, hmem⟩ := hwf.overlapping addr (addr + len)
  obtain ⟨m', hm', hwf', hlogged, hview⟩ := unmapRange_loop (Nat.le_add_right addr len) bases m hwf
    hnodup fun base hbase => (hmem base).mp hbase
  -- a region that waits in the loop is one that reaches into the range
  have hreach : ∀ key r, m.memSlab.get key = some r →
      (r.baseAddr ∈ bases ↔ r.baseAddr < addr + len ∧ addr < r.bottomAddr) := by
    intro key r hget
    rw [hmem]
    constructor
    · rintro ⟨key', r', hget', hbase', hlow, hhigh⟩
      obtain ⟨rfl, rfl⟩ := hwf.eq_of_baseAddr hget' hget hbase'
      exact ⟨hlow, hhigh⟩
    · rintro ⟨hlow, hhigh⟩
      exact ⟨key, r, hget, rfl, hlow, hhigh⟩
  refine ⟨{ m' with tlb := m'.tlb.flush }, ?_, hwf'.congr rfl rfl rfl, fun hspares => ?_,
    fun x v => ?_⟩
  · rw [Maps.unmapRange, if_neg (by omega)]
    simp only [hbases, hm', bind_eq_bind, bind_some]
  · refine (hlogged fun key r hget hbase => ?_).trans (Logged.of_eq rfl rfl rfl)
    obtain ⟨hlow, hhigh⟩ := (hreach key r hget).mp hbase
    exact hspares key r hget hlow hhigh
  · have hflush : Maps.viewAt { m' with tlb := m'.tlb.flush } x = m'.viewAt x :=
      viewAt_congr rfl rfl x
    rw [hflush, hview]
    refine and_congr_right fun _ => forall_congr' fun key => forall_congr' fun r => ?_
    refine forall_congr' fun hget => ?_
    rw [hreach key r hget, and_imp]

theorem Wf.unmapRange (addr len : Nat) : ∃ m', m.unmapRange addr len = some m' ∧ m'.Wf ∧
      ((∀ key r, m.memSlab.get key = some r → r.baseAddr < addr + len → addr < r.bottomAddr →
        SparesCode addr (addr + len) r) → Logged m m') := by
  by_cases hbound : addr + len < 2 ^ 64
  · obtain ⟨m', hm', hwf', hlogged, -⟩ := hwf.unmapRange_spec hbound
    exact ⟨m', hm', hwf', hlogged⟩
  · rw [Maps.unmapRange, if_pos (by omega)]
    exact ⟨m, rfl, hwf, fun _ => Logged.refl m⟩

end

/-! ### `map` and `map_lib` -/

theorem mapAt_fst (m : Maps) (found : Option Nat) (name : String) (sz : Nat)
    (permission : Permission) : (m.mapAt found name sz permission).1 =
      found.elim m fun addr => (m.createMap name addr sz permission).1 := by
  cases found with
  | none => rfl
  | some addr =>
    simp only [mapAt, elim_some]
    rcases m.createMap name addr sz permission with ⟨m', _ | _⟩ <;> rfl

end Maps

end Mwemu
