import Mwemu.Maps.Alloc

/-!
# Changing the protection of a range

The shared body of `VirtualProtect`, `VirtualProtectEx` and `NtProtectVirtualMemory` first collects
the regions of the page-rounded range, hopping from one to the next, and only then changes their
permissions. The end of the range is computed without a check for overflow: a range that runs over
the end of the address space is taken for an empty one, or for a part of its first page.
-/

namespace Mwemu

open Mwemu.Lib List Option Nat

namespace VirtualAlloc

def pageReadonly : UInt32 := 0x02
def pageReadwrite : UInt32 := 0x04
def pageWritecopy : UInt32 := 0x08
def pageExecute : UInt32 := 0x10
def pageExecuteRead : UInt32 := 0x20
def pageExecuteReadwrite : UInt32 := 0x40
def pageExecuteWritecopy : UInt32 := 0x80

def permissions (prot : UInt32) : Permission where
  read := (prot &&& (pageReadonly ||| pageReadwrite ||| pageWritecopy ||| pageExecuteRead |||
    pageExecuteReadwrite ||| pageExecuteWritecopy)) != 0
  write := (prot &&& (pageReadwrite ||| pageWritecopy ||| pageExecuteReadwrite |||
    pageExecuteWritecopy)) != 0
  execute := (prot &&& (pageExecute ||| pageExecuteRead ||| pageExecuteReadwrite |||
    pageExecuteWritecopy)) != 0

def roundUp (size : Nat) : Nat :=
  ((size + 0xfff) % 2 ^ 64) &&& 0xfffffffffffff000

end VirtualAlloc

namespace VirtualProtect

open VirtualAlloc

def pageNoaccess : UInt32 := 0x01

def pageProtection (permission : Permission) : UInt32 :=
  match permission.read, permission.write, permission.execute with
  | _, true, true => pageExecuteReadwrite
  | true, false, true => pageExecuteRead
  | false, false, true => pageExecute
  | _, true, false => pageReadwrite
  | true, false, false => pageReadonly
  | false, false, false => pageNoaccess

end VirtualProtect

namespace Maps

theorem inside_of_getMemByAddr {m : Maps} {addr : Nat} {found : Nat × Mem64}
    (hfound : (m.getMemByAddr addr).1 = some found) : found.2.inside addr = true := by
  have hsearch : m.searchMaps addr = some found → found.2.inside addr = true := by
    intro hsearch
    obtain ⟨-, -, -, hinside⟩ := searchMaps_eq_some_iff.mp hsearch
    exact hinside
  unfold getMemByAddr at hfound
  dsimp only at hfound
  split at hfound
  · split at hfound
    · next hinside =>
      cases hfound
      exact hinside
    · exact hsearch hfound
  · exact hsearch hfound

end Maps

namespace VirtualProtect

open VirtualAlloc Maps

variable {m m' m'' : Maps}

def collectBases (m : Maps) (stop cur : Nat) : Option (List Nat) × Maps :=
  if cur < stop then
    match hfound : (m.getMemByAddr cur).1 with
    | none => (none, (m.getMemByAddr cur).2)
    | some (_, mem) =>
      have : cur < mem.bottomAddr := (inside_eq_true.mp (inside_of_getMemByAddr hfound)).2
      let rest := collectBases (m.getMemByAddr cur).2 stop mem.bottomAddr
      (rest.1.map (mem.baseAddr :: ·), rest.2)
  else (some [], m)
termination_by stop - cur

/-- Change the permission of the region at a base, and log it if it becomes executable. -/
def protectOne (permission : Permission) (m : Maps) (base : Nat) : Maps :=
  match m.getMemByAddrMut base with
  | (none, m) => m
  | (some (key, mem), m) =>
    let size := mem.bottomAddr - base
    let m := { m with memSlab := m.memSlab.set key (mem.setPermission permission) }
    if permission.execute && !mem.canExecute then m.noteCodeWrite base size else m

def protect (m : Maps) (addr size : Nat) (prot : UInt32) : Option UInt32 × Maps :=
  let start := addr &&& 0xfffffffffffff000
  let stop := roundUp ((addr + max size 1) % 2 ^ 64)
  match collectBases m stop start with
  | (none, m) => (none, m)
  | (some bases, m) =>
    match m.getMemByAddr start with
    | (none, m) => (none, m)
    | (some (_, first), m) =>
      (some (pageProtection first.permission), bases.foldl (protectOne (permissions prot)) m)

/-! ### The regions of the range -/

def Mapped (m : Maps) (low high : Nat) : Prop :=
  ∀ x, low ≤ x → x < high → ∃ key r, m.memSlab.get key = some r ∧ r.inside x = true

/-- The region has an address in the range. -/
def Meets (r : Mem64) (low high : Nat) : Prop :=
  ∃ x, low ≤ x ∧ x < high ∧ r.inside x = true

def BasesOf (m : Maps) (low high : Nat) (bases : List Nat) : Prop :=
  ∀ base, base ∈ bases ↔
    ∃ key r, m.memSlab.get key = some r ∧ r.baseAddr = base ∧ Meets r low high

variable {low high : Nat}

theorem mapped_of_le (hle : high ≤ low) : Mapped m low high :=
  fun _ hlow hhigh => absurd (lt_of_le_of_lt hlow hhigh) (not_lt.mpr hle)

variable {key : Nat} {r : Mem64}

theorem mapped_behind_iff (hget : m.memSlab.get key = some r) (hinside : r.inside low = true) :
    Mapped m low high ↔ Mapped m r.bottomAddr high := by
  rw [inside_eq_true] at hinside
  constructor
  · intro hmapped x hlow hhigh
    exact hmapped x (by omega) hhigh
  · intro hmapped x hlow hhigh
    by_cases hx : x < r.bottomAddr
    · exact ⟨key, r, hget, inside_eq_true.mpr ⟨by omega, hx⟩⟩
    · exact hmapped x (by omega) hhigh

theorem Wf.basesOf_cons (hwf : m.Wf) {bases : List Nat} (hget : m.memSlab.get key = some r)
    (hinside : r.inside low = true) (hlt : low < high)
    (hbases : BasesOf m r.bottomAddr high bases) : BasesOf m low high (r.baseAddr :: bases) := by
  have hrange := inside_eq_true.mp hinside
  intro base
  rw [mem_cons, hbases]
  constructor
  · rintro (rfl | ⟨k, r', hget', hbase, x, hlow, hhigh, hx⟩)
    · exact ⟨key, r, hget, rfl, low, le_refl _, hlt, hinside⟩
    · exact ⟨k, r', hget', hbase, x, by omega, hhigh, hx⟩
  rintro ⟨k, r', hget', rfl, x, hlow, hhigh, hx⟩
  by_cases hfirst : x < r.bottomAddr
  · have hx' : r.inside x = true := inside_eq_true.mpr ⟨by omega, hfirst⟩
    have hsame := (hwf.searchMaps_eq_some.mpr ⟨hget', hx⟩).symm.trans
      (hwf.searchMaps_eq_some.mpr ⟨hget, hx'⟩)
    cases hsame
    exact .inl rfl
  · exact .inr ⟨k, r', hget', rfl, x, by omega, hhigh, hx⟩

theorem collectBases_spec (hwf : m.Wf) (stop cur : Nat) :
    (∃ tlb, (collectBases m stop cur).2 = { m with tlb := tlb }) ∧
      ((collectBases m stop cur).1 = none → ¬ Mapped m cur stop) ∧
      ∀ bases, (collectBases m stop cur).1 = some bases →
        Mapped m cur stop ∧ BasesOf m cur stop bases := by
  fun_induction collectBases m stop cur with
  | case1 m cur hcur hfound =>
    refine ⟨m.getMemByAddr_snd cur, fun _ hmapped => ?_, nofun⟩
    obtain ⟨key, r, hget, hinside⟩ := hmapped cur (le_refl _) hcur
    rw [hwf.getMemByAddr_fst, hwf.searchMaps_eq_some.mpr ⟨hget, hinside⟩] at hfound
    cases hfound
  | case2 m cur hcur key mem hfound hbottom rest ih =>
    obtain ⟨tlb, htlb⟩ := m.getMemByAddr_snd cur
    rw [hwf.getMemByAddr_fst] at hfound
    obtain ⟨hget, hinside⟩ := hwf.searchMaps_eq_some.mp hfound
    have hwf' : (m.getMemByAddr cur).2.Wf := by
      rw [htlb]
      exact hwf.congr rfl rfl rfl
    obtain ⟨⟨tlb', htlb'⟩, hnone, hsome⟩ := ih hwf'
    have hmapped_eq : Mapped (m.getMemByAddr cur).2 = Mapped m := by
      unfold Mapped
      rw [htlb]
    have hbases_eq : BasesOf (m.getMemByAddr cur).2 = BasesOf m := by
      unfold BasesOf
      rw [htlb]
    refine ⟨⟨tlb', htlb'.trans (by rw [htlb])⟩, fun hfail => ?_, fun bases hbases => ?_⟩
    · rw [mapped_behind_iff hget hinside, ← hmapped_eq]
      exact hnone (map_eq_none_iff.mp hfail)
    obtain ⟨bases', hbases', rfl⟩ := map_eq_some_iff.mp hbases
    obtain ⟨hmapped, hof⟩ := hsome bases' hbases'
    rw [hmapped_eq] at hmapped
    rw [hbases_eq] at hof
    exact ⟨(mapped_behind_iff hget hinside).mpr hmapped, Wf.basesOf_cons hwf hget hinside hcur hof⟩
  | case3 m cur hcur =>
    refine ⟨⟨m.tlb, rfl⟩, nofun, fun bases hbases => ?_⟩
    cases hbases
    refine ⟨mapped_of_le (Nat.le_of_not_lt hcur), fun base => ?_⟩
    simp only [not_mem_nil, false_iff]
    rintro ⟨-, -, -, -, x, hlow, hhigh, -⟩
    omega

/-! ### The change of permissions -/

/-- The regions at the bases have the new permission, and those that it made executable are in the
log. -/
structure Repermits (m m' : Maps) (permission : Permission) (bases : List Nat) : Prop where
  wf : m'.Wf
  get : ∀ key, m'.memSlab.get key = (m.memSlab.get key).map fun r =>
    if r.baseAddr ∈ bases then r.setPermission permission else r
  covered : ∀ key r, m.memSlab.get key = some r → r.baseAddr ∈ bases → r.canExecute = false →
    permission.execute = true → ∀ x, r.inside x = true → m'.Covered x
  grows : LogGrows m m'

variable {permission : Permission} {base : Nat} {bases : List Nat}

theorem protectOne_repermits (hwf : m.Wf) (hget : m.memSlab.get key = some r)
    (hinside : r.inside r.baseAddr = true) :
    Repermits m (protectOne permission m r.baseAddr) permission [r.baseAddr] := by
  obtain ⟨tlb, hlookup⟩ := hwf.getMemByAddrMut_eq r.baseAddr
  rw [hwf.searchMaps_eq_some.mpr ⟨hget, hinside⟩] at hlookup
  -- the region's permission is set first, the log entry comes after
  let m₁ := { m with tlb := tlb, memSlab := m.memSlab.set key (r.setPermission permission) }
  have hchanges : Changes m m₁ key (some (r.setPermission permission)) :=
    hwf.changes_set hget rfl rfl rfl rfl rfl (le_refl _) (hwf.sized key r hget)
  obtain ⟨log, hone, hgrows, hcovered⟩ : ∃ log, protectOne permission m r.baseAddr =
      { m₁ with codeWrites := log } ∧ LogGrows m (protectOne permission m r.baseAddr) ∧
      (r.canExecute = false → permission.execute = true → ∀ x, r.inside x = true →
        (protectOne permission m r.baseAddr).Covered x) := by
    unfold protectOne
    rw [hlookup]
    dsimp only
    split
    · obtain ⟨log, hlog⟩ := noteCodeWrite_eq m₁ r.baseAddr (r.bottomAddr - r.baseAddr)
      have hsame : LogGrows m m₁ := .of_eq rfl
      refine ⟨log, hlog, hsame.trans (LogGrows.noteCodeWrite _ _ _), fun _ _ x hx => ?_⟩
      rw [inside_eq_true] at hx
      exact covered_noteCodeWrite ⟨hx.1, by omega⟩
    · next hexec =>
      refine ⟨m.codeWrites, rfl, .of_eq rfl, fun hold hnew => absurd ?_ hexec⟩
      rw [hold, hnew]
      rfl
  refine ⟨?_, fun k => ?_, fun k r' hget' hbase hold hnew x hx => ?_, hgrows⟩
  · rw [hone]
    exact (hchanges.wf hwf).congr rfl rfl rfl
  · rw [hone]
    refine (hchanges.get k).trans ?_
    split
    · next hk =>
      rw [hk, hget, map_some, if_pos (mem_singleton_self _)]
    · next hk =>
      cases hget' : m.memSlab.get k with
      | none => rfl
      | some r' =>
        rw [map_some, if_neg]
        rw [mem_singleton]
        exact fun hbase => hk (hwf.eq_of_baseAddr hget' hget hbase).1
  · rw [mem_singleton] at hbase
    obtain ⟨-, rfl⟩ := hwf.eq_of_baseAddr hget' hget hbase
    exact hcovered hold hnew x hx

theorem Repermits.trans (h₁ : Repermits m m' permission [base])
    (h₂ : Repermits m' m'' permission bases) : Repermits m m'' permission (base :: bases) := by
  refine ⟨h₂.wf, fun key => ?_, fun key r hget hbase hold hnew x hx => ?_, h₁.grows.trans h₂.grows⟩
  · rw [h₂.get, h₁.get, Option.map_map]
    congr 1
    funext r
    simp only [Function.comp_apply, List.mem_cons, List.not_mem_nil, or_false]
    by_cases hfirst : r.baseAddr = base
    · rw [if_pos hfirst, if_pos (Or.inl hfirst)]
      exact ite_self _
    · simp only [hfirst, false_or, if_false]
  · by_cases hfirst : r.baseAddr ∈ [base]
    · exact h₂.grows.covered (h₁.covered key r hget hfirst hold hnew x hx)
    · have hget' : m'.memSlab.get key = some r := by
        rw [h₁.get, hget, map_some, if_neg hfirst]
      rw [mem_singleton] at hfirst
      exact h₂.covered key r hget' ((mem_cons.mp hbase).resolve_left hfirst) hold hnew x hx

theorem foldl_repermits (hwf : m.Wf)
    (hbases : ∀ base ∈ bases, ∃ key r, m.memSlab.get key = some r ∧ r.baseAddr = base ∧
      r.inside base = true) :
    Repermits m (bases.foldl (protectOne permission) m) permission bases := by
  induction bases generalizing m with
  | nil =>
    refine ⟨hwf, fun key => ?_, fun key r hget hbase => absurd hbase not_mem_nil, .of_eq rfl⟩
    simp only [not_mem_nil, if_false]
    exact map_id'.symm
  | cons base bases ih =>
    obtain ⟨key, r, hget, rfl, hinside⟩ := hbases base mem_cons_self
    have hone : Repermits m (protectOne permission m r.baseAddr) permission [r.baseAddr] :=
      protectOne_repermits hwf hget hinside
    refine hone.trans (ih hone.wf fun base hbase => ?_)
    obtain ⟨key', r', hget', hbase', hinside'⟩ := hbases base (mem_cons_of_mem _ hbase)
    refine ⟨key', _, by rw [hone.get, hget', map_some], ?_⟩
    split
    · exact ⟨hbase', hinside'⟩
    · exact ⟨hbase', hinside'⟩

theorem Repermits.byteAt (hwf : m.Wf) (h : Repermits m m' permission bases) (x : Nat) :
    m'.byteAt x = m.byteAt x := by
  have hinside (r : Mem64) :
      (if r.baseAddr ∈ bases then r.setPermission permission else r).inside x = r.inside x := by
    split <;> rfl
  have hbyte (r : Mem64) :
      (if r.baseAddr ∈ bases then r.setPermission permission else r).byteAt x = r.byteAt x := by
    split <;> rfl
  cases hfound : m.searchMaps x with
  | some found =>
    obtain ⟨hget, hin⟩ := hwf.searchMaps_eq_some.mp hfound
    have hget' := h.get found.1
    rw [hget, map_some] at hget'
    have hfound' := h.wf.searchMaps_eq_some.mpr ⟨hget', (hinside _).trans hin⟩
    rw [Maps.byteAt, Maps.byteAt, hfound, hfound']
    exact hbyte found.2
  | none =>
    cases hfound' : m'.searchMaps x with
    | none => rw [Maps.byteAt, Maps.byteAt, hfound, hfound']
    | some found =>
      obtain ⟨hget', hin⟩ := h.wf.searchMaps_eq_some.mp hfound'
      rw [h.get, map_eq_some_iff] at hget'
      obtain ⟨r, hget, heq⟩ := hget'
      rw [← heq, hinside] at hin
      rw [hwf.searchMaps_eq_some.mpr ⟨hget, hin⟩] at hfound
      cases hfound

/-! ### The range of a call -/

def pageBase (addr : Nat) : Nat :=
  addr / defaultAlignment * defaultAlignment

theorem mask_eq_pageBase {addr : Nat} (haddr : addr < 2 ^ 64) :
    addr &&& 0xfffffffffffff000 = pageBase addr := by
  have hmask : 0xfffffffffffff000 = 2 ^ 64 - 2 ^ 12 := by decide
  rw [hmask, and_two_pow_sub_two_pow (by decide) haddr]
  rfl

theorem roundUp_eq {x : Nat} (hx : x ≤ 2 ^ 64 - defaultAlignment) : roundUp x = pageRound x := by
  have hpage : defaultAlignment = 4096 := rfl
  have halign : roundUp x = alignUp x defaultAlignment := rfl
  rw [halign, alignUp_eq (by omega), if_pos hx]

/-- What a call did: the regions that meet the range have the new permission, the others are as they
were, no byte has changed, and what became executable is in the log. -/
structure Protects (m m' : Maps) (low high : Nat) (permission : Permission) : Prop where
  changed : ∀ key r, m.memSlab.get key = some r → Meets r low high →
    m'.memSlab.get key = some (r.setPermission permission)
  kept : ∀ key, (∀ r, m.memSlab.get key = some r → ¬ Meets r low high) →
    m'.memSlab.get key = m.memSlab.get key
  bytes : ∀ x, m'.byteAt x = m.byteAt x
  logged : ∀ key r r', m.memSlab.get key = some r → m'.memSlab.get key = some r' →
    r.canExecute = false → r'.canExecute = true → ∀ x, r.inside x = true → m'.Covered x

theorem Repermits.protects (hwf : m.Wf) (h : Repermits m m' permission bases)
    (hbases : BasesOf m low high bases) : Protects m m' low high permission := by
  have hmem : ∀ key r, m.memSlab.get key = some r → (r.baseAddr ∈ bases ↔ Meets r low high) := by
    intro key r hget
    rw [hbases]
    constructor
    · rintro ⟨key', r', hget', hbase, hmeets⟩
      obtain ⟨-, rfl⟩ := hwf.eq_of_baseAddr hget' hget hbase
      exact hmeets
    · exact fun hmeets => ⟨key, r, hget, rfl, hmeets⟩
  refine ⟨fun key r hget hmeets => ?_, fun key hnot => ?_, h.byteAt hwf,
    fun key r r' hget hget' hold hnew => ?_⟩
  · rw [h.get, hget, map_some, if_pos ((hmem key r hget).mpr hmeets)]
  · rw [h.get]
    cases hget : m.memSlab.get key with
    | none => rfl
    | some r => rw [map_some, if_neg (mt (hmem key r hget).mp (hnot r hget))]
  rw [h.get, hget, map_some] at hget'
  by_cases hbase : r.baseAddr ∈ bases
  · rw [if_pos hbase] at hget'
    cases hget'
    exact h.covered key r hget hbase hold hnew
  · rw [if_neg hbase] at hget'
    cases hget'
    rw [hold] at hnew
    cases hnew

/-- The call fails and changes no permission if some address of the page-rounded range is not
mapped; otherwise it returns the protection of the first page and changes that of the range. -/
structure ProtectsRange (m : Maps) (addr size : Nat) (prot : UInt32) : Prop where
  unmapped : ¬ Mapped m (pageBase addr) (pageRound (addr + max size 1)) →
    (protect m addr size prot).1 = none ∧ ∀ key,
      ((protect m addr size prot).2.memSlab.get key).map Mem64.permission =
        (m.memSlab.get key).map Mem64.permission
  mapped : Mapped m (pageBase addr) (pageRound (addr + max size 1)) →
    (∃ key first, m.memSlab.get key = some first ∧ first.inside (pageBase addr) = true ∧
      (protect m addr size prot).1 = some (pageProtection first.permission)) ∧
    Protects m (protect m addr size prot).2 (pageBase addr) (pageRound (addr + max size 1))
      (permissions prot)

theorem protect_spec (hwf : m.Wf) {addr size stop : Nat} (haddr : addr < 2 ^ 64) (prot : UInt32)
    (hstop : roundUp ((addr + max size 1) % 2 ^ 64) = stop) :
    (¬ Mapped m (pageBase addr) (max (pageBase addr + 1) stop) →
      ∃ tlb, protect m addr size prot = (none, { m with tlb := tlb })) ∧
    (Mapped m (pageBase addr) (max (pageBase addr + 1) stop) →
      (∃ key first, m.memSlab.get key = some first ∧ first.inside (pageBase addr) = true ∧
        (protect m addr size prot).1 = some (pageProtection first.permission)) ∧
      Protects m (protect m addr size prot).2 (pageBase addr) stop (permissions prot)) := by
  obtain ⟨⟨tlb, htlb⟩, hnone, hsome⟩ := collectBases_spec hwf stop (pageBase addr)
  unfold protect
  rw [hstop, mask_eq_pageBase haddr]
  dsimp only
  rw [← Prod.mk.eta (p := collectBases m stop (pageBase addr)), htlb]
  have hshort : Mapped m (pageBase addr) (max (pageBase addr + 1) stop) →
      Mapped m (pageBase addr) stop :=
    fun hmapped x hlow hhigh => hmapped x hlow (lt_of_lt_of_le hhigh (le_max_right _ _))
  cases hcollect : (collectBases m stop (pageBase addr)).1 with
  | none =>
    refine ⟨fun _ => ⟨tlb, rfl⟩, fun hmapped => absurd (hshort hmapped) (hnone hcollect)⟩
  | some bases =>
    obtain ⟨hmapped, hbases⟩ := hsome bases hcollect
    have hwf₁ : Wf { m with tlb := tlb } := hwf.congr rfl rfl rfl
    obtain ⟨tlb', hlookup⟩ : ∃ tlb', getMemByAddr { m with tlb := tlb } (pageBase addr) =
        (m.searchMaps (pageBase addr), { m with tlb := tlb' }) := hwf₁.getMemByAddr_eq _
    dsimp only
    rw [hlookup]
    cases hfirst : m.searchMaps (pageBase addr) with
    | none =>
      refine ⟨fun _ => ⟨tlb', rfl⟩, fun hall => ?_⟩
      obtain ⟨key, r, hget, hinside⟩ := hall (pageBase addr) (le_refl _)
        (lt_of_lt_of_le (lt_succ_self _) (le_max_left _ _))
      rw [hwf.searchMaps_eq_some.mpr ⟨hget, hinside⟩] at hfirst
      cases hfirst
    | some found =>
      obtain ⟨key, first⟩ := found
      obtain ⟨hget, hinside⟩ := hwf.searchMaps_eq_some.mp hfirst
      constructor
      · intro hgap
        refine absurd (fun x hlow hhigh => ?_) hgap
        rcases lt_or_ge x stop with hx | hx
        · exact hmapped x hlow hx
        · obtain rfl : x = pageBase addr := by omega
          exact ⟨key, first, hget, hinside⟩
      intro _
      refine ⟨⟨key, first, hget, hinside, rfl⟩, ?_⟩
      have hrep : Repermits { m with tlb := tlb' }
          (bases.foldl (protectOne (permissions prot)) { m with tlb := tlb' })
          (permissions prot) bases := by
        refine foldl_repermits (hwf.congr rfl rfl rfl) fun base hbase => ?_
        obtain ⟨key', r, hget', rfl, x, -, -, hx⟩ := (hbases base).mp hbase
        rw [inside_eq_true] at hx
        exact ⟨key', r, hget', rfl, inside_eq_true.mpr ⟨le_refl _, by omega⟩⟩
      have hsame : Repermits m _ (permissions prot) bases :=
        ⟨hrep.wf, hrep.get, hrep.covered, hrep.grows⟩
      exact hsame.protects hwf hbases

/-- The call does what it should exactly if the rounded range ends in the address space, or some
address is not mapped of what is left of the range when its end wraps around. -/
theorem protect_range_iff (m : Maps) (hwf : m.Wf) (addr size : Nat) (haddr : addr < 2 ^ 64)
    (hsize : size < 2 ^ 64) (prot : UInt32) : ProtectsRange m addr size prot ↔
      addr + max size 1 ≤ 2 ^ 64 - defaultAlignment ∨ ¬ Mapped m (pageBase addr)
        (max (pageBase addr + 1) (roundUp ((addr + max size 1) % 2 ^ 64))) := by
  have hpage : defaultAlignment = 4096 := rfl
  have hbase : pageBase addr ≤ addr := div_mul_le_self _ _
  have hround := le_pageRound (addr + max size 1)
  by_cases hfit : addr + max size 1 ≤ 2 ^ 64 - defaultAlignment
  · have hstop : roundUp ((addr + max size 1) % 2 ^ 64) = pageRound (addr + max size 1) := by
      rw [mod_eq_of_lt (by omega), roundUp_eq hfit]
    obtain ⟨hgap, hwhole⟩ := protect_spec hwf haddr prot hstop
    rw [max_eq_right (by omega)] at hgap hwhole
    refine ⟨fun _ => .inl hfit, fun _ => ⟨fun hunmapped => ?_, fun hmapped => ?_⟩⟩
    · obtain ⟨tlb, hcall⟩ := hgap hunmapped
      rw [hcall]
      exact ⟨rfl, fun _ => rfl⟩
    · exact hwhole hmapped
  · have hstop : roundUp ((addr + max size 1) % 2 ^ 64) = _ := rfl
    obtain ⟨hgap, hwhole⟩ := protect_spec hwf haddr prot hstop
    have hno : ¬ Mapped m (pageBase addr) (pageRound (addr + max size 1)) := by
      intro hmapped
      have hend : 2 ^ 64 ≤ pageRound (addr + max size 1) := by
        unfold pageRound
        rw [hpage]
        omega
      obtain ⟨key, r, hget, hinside⟩ := hmapped (2 ^ 64 - 1) (by omega) (by omega)
      have hbounded := hwf.bounded key r hget
      have hmax : u64Max = 2 ^ 64 - 1 := rfl
      rw [inside_eq_true] at hinside
      omega
    constructor
    · intro hrange
      refine .inr fun hmapped => ?_
      obtain ⟨⟨key, first, -, -, hsome⟩, -⟩ := hwhole hmapped
      rw [(hrange.unmapped hno).1] at hsome
      cases hsome
    · intro hcond
      refine ⟨fun _ => ?_, fun hmapped => absurd hmapped hno⟩
      obtain ⟨tlb, hcall⟩ := hgap (hcond.resolve_left hfit)
      rw [hcall]
      exact ⟨rfl, fun _ => rfl⟩

def onePage : List Op :=
  [.createMap "a" 0x1000 0x1000 { read := true, write := false, execute := false }]

theorem onePage_admitted :
    Along Op.step (fun m op => op.InRange m ∧ op.Admitted m) Maps.default onePage := by
  decide +kernel

/-- Two regions that meet in the middle of the range of the call below. -/
def twoRegions : List Op :=
  onePage ++ [.createMap "b" 0x2000 0x1000 readWrite]

theorem protect_range_iff_twoRegions : ∃ m, run Op.step Maps.default twoRegions = some m ∧
      (ProtectsRange m 0x1800 0x1000 pageExecuteRead ↔
        0x1800 + max 0x1000 1 ≤ 2 ^ 64 - defaultAlignment ∨ ¬ Mapped m (pageBase 0x1800)
          (max (pageBase 0x1800 + 1) (roundUp ((0x1800 + max 0x1000 1) % 2 ^ 64)))) ∧
      ProtectsRange m 0x1800 0x1000 pageExecuteRead := by
  have hops : Along Op.step (fun m op => op.InRange m ∧ op.Admitted m) Maps.default twoRegions := by
    decide +kernel
  have hsome : (run Op.step Maps.default twoRegions).isSome = true := by decide +kernel
  obtain ⟨m, hrun⟩ := isSome_iff_exists.mp hsome
  have hiff := protect_range_iff m (wf_of_run hops hrun) 0x1800 0x1000 (by decide) (by decide)
    pageExecuteRead
  exact ⟨m, hrun, hiff, hiff.mpr (.inl (by decide))⟩

/-- The range of a size that wraps around is taken for an empty one: the call succeeds although
nothing is mapped behind the first page, and changes nothing. -/
theorem protect_wrapped :
    ∃ m, run Op.step Maps.default onePage = some m ∧ m.Wf ∧ m.byteAt 0x2000 = none ∧
      (protect m 0x1000 0xffffffffffffffff pageExecuteRead).1 = some pageReadonly := by
  have hcall : (run Op.step Maps.default onePage).map (fun m =>
      (m.byteAt 0x2000, (protect m 0x1000 0xffffffffffffffff pageExecuteRead).1)) =
      some (none, some pageReadonly) := by
    decide +kernel
  obtain ⟨m, hrun, hcall⟩ := map_eq_some_iff.mp hcall
  rw [Prod.mk.injEq] at hcall
  exact ⟨m, hrun, wf_of_run onePage_admitted hrun, hcall⟩

end VirtualProtect

end Mwemu
