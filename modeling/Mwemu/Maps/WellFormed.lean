import Mwemu.Lib.Run
import Mwemu.Maps.Basic

/-!
# Well-formed stores

A store is well formed when its regions are disjoint and its two indexes name exactly the live
regions. Every operation changes the region of one key at a time: `Changes` says what such a change
must satisfy to keep the store well formed. The lookups are exact on a well-formed store, whatever
the lookup buffer holds.
-/

namespace Mwemu

open Mwemu.Lib OrdMap Slab

namespace Maps

variable {m m' : Maps}

structure Wf (m : Maps) : Prop where
  disjoint : ∀ k₁ k₂ r₁ r₂, m.memSlab.get k₁ = some r₁ → m.memSlab.get k₂ = some r₂ → k₁ ≠ k₂ →
    overlaps r₁ r₂ = false
  based : ∀ base key, (base, key) ∈ m.maps ↔ ∃ r, m.memSlab.get key = some r ∧ r.baseAddr = base
  named : ∀ name key, m.nameMap name = some key ↔
    ∃ r, m.memSlab.get key = some r ∧ r.memName = name
  sized : ∀ key r, m.memSlab.get key = some r → r.bottomAddr = r.baseAddr + r.size
  bounded : ∀ key r, m.memSlab.get key = some r → r.bottomAddr ≤ u64Max

theorem overlaps_comm (r₁ r₂ : Mem64) : overlaps r₁ r₂ = overlaps r₂ r₁ := by
  rw [overlaps, overlaps, Bool.and_comm]

theorem overlaps_eq_false {r₁ r₂ : Mem64} :
    overlaps r₁ r₂ = false ↔ ¬ (r₁.baseAddr < r₂.bottomAddr ∧ r₂.baseAddr < r₁.bottomAddr) := by
  rw [overlaps, ← Bool.not_eq_true, Bool.and_eq_true, decide_eq_true_eq, decide_eq_true_eq]

theorem wf_default : default.Wf := by
  constructor <;> simp [default, get_empty]

theorem Wf.eq_of_baseAddr (hwf : m.Wf) {k₁ k₂ : Nat} {r₁ r₂ : Mem64}
    (h₁ : m.memSlab.get k₁ = some r₁) (h₂ : m.memSlab.get k₂ = some r₂)
    (hbase : r₁.baseAddr = r₂.baseAddr) : k₁ = k₂ ∧ r₁ = r₂ := by
  have hentry := entry_eq ((hwf.based r₂.baseAddr k₁).mpr ⟨r₁, h₁, hbase⟩)
    ((hwf.based r₂.baseAddr k₂).mpr ⟨r₂, h₂, rfl⟩) rfl
  obtain rfl := (Prod.mk.inj hentry).2
  exact ⟨rfl, Option.some.inj (h₁.symm.trans h₂)⟩

/-- Only the region of `key` differs: it is `new` in the second store, in all the indexes, and
overlaps no other region. -/
structure Changes (m m' : Maps) (key : Nat) (new : Option Mem64) : Prop where
  get : ∀ k, m'.memSlab.get k = if k = key then new else m.memSlab.get k
  maps : ∀ base k, (base, k) ∈ m'.maps ↔
    if k = key then ∃ r, new = some r ∧ r.baseAddr = base else (base, k) ∈ m.maps
  names : ∀ name k, m'.nameMap name = some k ↔
    if k = key then ∃ r, new = some r ∧ r.memName = name else m.nameMap name = some k
  disjoint : ∀ r, new = some r → ∀ k r', k ≠ key → m.memSlab.get k = some r' →
    overlaps r r' = false
  sized : ∀ r, new = some r → r.bottomAddr = r.baseAddr + r.size ∧ r.bottomAddr ≤ u64Max

variable {key : Nat} {new : Option Mem64}

theorem Changes.wf (hchanges : Changes m m' key new) (hwf : m.Wf) : m'.Wf := by
  constructor
  case disjoint =>
      intro k₁ k₂ r₁ r₂ h₁ h₂ hne
      rw [hchanges.get] at h₁ h₂
      split at h₁ <;> split at h₂
      · next hk₁ hk₂ => exact absurd (hk₁.trans hk₂.symm) hne
      · next hk₁ hk₂ => exact hchanges.disjoint r₁ h₁ k₂ r₂ hk₂ h₂
      · next hk₁ hk₂ =>
        rw [overlaps_comm]
        exact hchanges.disjoint r₂ h₂ k₁ r₁ hk₁ h₁
      · exact hwf.disjoint k₁ k₂ r₁ r₂ h₁ h₂ hne
  case based =>
      intro base k
      rw [hchanges.maps, hchanges.get]
      split
      · rfl
      · exact hwf.based base k
  case named =>
      intro name k
      rw [hchanges.names, hchanges.get]
      split
      · rfl
      · exact hwf.named name k
  case sized =>
      intro k r hr
      rw [hchanges.get] at hr
      split at hr
      · exact (hchanges.sized r hr).1
      · exact hwf.sized k r hr
  case bounded =>
      intro k r hr
      rw [hchanges.get] at hr
      split at hr
      · exact (hchanges.sized r hr).2
      · exact hwf.bounded k r hr

theorem Changes.get_of_ne (hchanges : Changes m m' key new) {k : Nat} (hne : k ≠ key) :
    m'.memSlab.get k = m.memSlab.get k := by
  rw [hchanges.get, if_neg hne]

theorem Changes.get_self (hchanges : Changes m m' key new) : m'.memSlab.get key = new := by
  rw [hchanges.get, if_pos rfl]

variable {r : Mem64}

theorem Wf.changes_set (hwf : m.Wf) {r' : Mem64} (hkey : m.memSlab.get key = some r)
    (hslab : m'.memSlab = m.memSlab.set key r') (hmaps : m'.maps = m.maps)
    (hnames : m'.nameMap = m.nameMap) (hname : r'.memName = r.memName)
    (hbase : r'.baseAddr = r.baseAddr) (hbottom : r'.bottomAddr ≤ r.bottomAddr)
    (hsized : r'.bottomAddr = r'.baseAddr + r'.size) : Changes m m' key (some r') := by
  have hbounded := hwf.bounded key r hkey
  constructor
  case get =>
      intro k
      rw [hslab, get_set _ (by rw [hkey]; rfl)]
  case maps =>
      intro base k
      rw [hmaps, hwf.based]
      split
      · next hk =>
        subst hk
        simp [hkey, hbase]
      · rfl
  case names =>
      intro name k
      rw [hnames, hwf.named]
      split
      · next hk =>
        subst hk
        simp [hkey, hname]
      · rfl
  case disjoint =>
      rintro _ ⟨⟩ k other hne hother
      have hold := overlaps_eq_false.mp (hwf.disjoint key k r other hkey hother (Ne.symm hne))
      rw [overlaps_eq_false]
      omega
  case sized =>
      rintro _ ⟨⟩
      exact ⟨hsized, by omega⟩

theorem Wf.changes_moved (hwf : m.Wf) {r' : Mem64} (hkey : m.memSlab.get key = some r)
    (hslab : m'.memSlab = m.memSlab.set key r')
    (hmaps : m'.maps = (m.maps.remove r.baseAddr).insert r'.baseAddr key)
    (hnames : m'.nameMap = m.nameMap) (hname : r'.memName = r.memName)
    (hbase : r.baseAddr < r'.baseAddr) (hlt : r'.baseAddr < r.bottomAddr)
    (hbottom : r'.bottomAddr = r.bottomAddr) (hsized : r'.bottomAddr = r'.baseAddr + r'.size) :
    Changes m m' key (some r') := by
  have hbounded := hwf.bounded key r hkey
  have hother : ∀ k other, k ≠ key → m.memSlab.get k = some other →
      ¬ (r.baseAddr < other.bottomAddr ∧ other.baseAddr < r.bottomAddr) := fun k other hne hget =>
    overlaps_eq_false.mp (hwf.disjoint key k r other hkey hget (Ne.symm hne))
  constructor
  case get =>
      intro k
      rw [hslab, get_set _ (by rw [hkey]; rfl)]
  case maps =>
      intro base k
      rw [hmaps, mem_insert, mem_remove, hwf.based, Prod.mk.injEq]
      simp only
      split
      · next hk =>
        subst hk
        simp [hkey, eq_comm]
      · next hk =>
        refine ⟨?_, fun ⟨other, hget, hbase'⟩ => .inr ⟨⟨⟨other, hget, hbase'⟩, ?_⟩, ?_⟩⟩
        · rintro (⟨-, hk'⟩ | ⟨⟨hold, -⟩, -⟩)
          · exact absurd hk' hk
          · exact hold
        -- a second region at the old or the new base would overlap the old range
        · rintro rfl
          exact hk (hwf.eq_of_baseAddr hget hkey hbase').1
        · have hsized' := hwf.sized k other hget
          have hdisjoint := hother k other hk hget
          omega
  case names =>
      intro name k
      rw [hnames, hwf.named]
      split
      · next hk =>
        subst hk
        simp [hkey, hname]
      · rfl
  case disjoint =>
      rintro _ ⟨⟩ k other hne hget
      have hdisjoint := hother k other hne hget
      rw [overlaps_eq_false]
      omega
  case sized =>
      rintro _ ⟨⟩
      exact ⟨hsized, by omega⟩

theorem Wf.changes_remove (hwf : m.Wf) (hkey : m.memSlab.get key = some r)
    (hslab : m'.memSlab = m.memSlab.remove key) (hmaps : m'.maps = m.maps.remove r.baseAddr)
    (hnames : m'.nameMap = Function.update m.nameMap r.memName none) : Changes m m' key none := by
  have hname := (hwf.named r.memName key).mpr ⟨r, hkey, rfl⟩
  constructor
  case get => exact fun k => by rw [hslab, get_remove]
  case maps =>
      intro base k
      rw [hmaps, mem_remove]
      split
      · next hk =>
        subst hk
        rw [hwf.based]
        simp [hkey, eq_comm]
      · next hk =>
        refine and_iff_left_of_imp fun hmem hbase => hk ?_
        obtain ⟨other, hget, hbase'⟩ := (hwf.based base k).mp hmem
        exact (hwf.eq_of_baseAddr hget hkey (hbase'.trans hbase)).1
  case names =>
      intro name k
      rw [hnames, Function.update_apply]
      by_cases hn : name = r.memName
      · subst hn
        simp only [hname, Option.some.injEq]
        split <;> simp_all [eq_comm]
      rw [if_neg hn, hwf.named]
      split
      · next hk =>
        subst hk
        simp [hkey, Ne.symm hn]
      · rfl
  case disjoint => exact fun _ hnew => nomatch hnew
  case sized => exact fun _ hnew => nomatch hnew

theorem Wf.changes_insert (hwf : m.Wf) (hslab : m'.memSlab = m.memSlab.insert r)
    (hmaps : m'.maps = m.maps.insert r.baseAddr m.memSlab.nextKey)
    (hnames : m'.nameMap = Function.update m.nameMap r.memName (some m.memSlab.nextKey))
    (hname : m.nameMap r.memName = none) (hclear : ∀ k other, m.memSlab.get k = some other →
      overlaps r other = false ∧ other.baseAddr ≠ r.baseAddr)
    (hsized : r.bottomAddr = r.baseAddr + r.size) (hbounded : r.bottomAddr ≤ u64Max) :
    Changes m m' m.memSlab.nextKey (some r) := by
  have hvacant := m.memSlab.get_nextKey
  constructor
  case get => exact fun k => by rw [hslab, get_insert]
  case maps =>
      intro base k
      rw [hmaps, mem_insert, hwf.based, Prod.mk.injEq]
      simp only
      split
      · next hk =>
        subst hk
        simp [hvacant, eq_comm]
      · next hk =>
        refine ⟨?_, fun ⟨other, hget, hbase⟩ => .inr ⟨⟨other, hget, hbase⟩, ?_⟩⟩
        · rintro (⟨-, hk'⟩ | ⟨hold, -⟩)
          · exact absurd hk' hk
          · exact hold
        · exact hbase ▸ (hclear k other hget).2
  case names =>
      intro name k
      rw [hnames, Function.update_apply]
      by_cases hn : name = r.memName
      · subst hn
        rw [if_pos rfl]
        split
        · next hk => simp [hk]
        · next hk => simp [hname, Ne.symm hk]
      · rw [if_neg hn, hwf.named]
        split
        · next hk =>
          subst hk
          simp [hvacant, Ne.symm hn]
        · rfl
  case disjoint =>
      rintro _ ⟨⟩ k other - hget
      exact (hclear k other hget).1
  case sized =>
      rintro _ ⟨⟩
      exact ⟨hsized, hbounded⟩

theorem Wf.congr (hwf : m.Wf) (hslab : m'.memSlab = m.memSlab) (hmaps : m'.maps = m.maps)
    (hnames : m'.nameMap = m.nameMap) : m'.Wf := by
  refine ⟨?_, ?_, ?_, ?_, ?_⟩
  · simpa only [hslab] using hwf.disjoint
  · simpa only [hslab, hmaps] using hwf.based
  · simpa only [hslab, hnames] using hwf.named
  · simpa only [hslab] using hwf.sized
  · simpa only [hslab] using hwf.bounded

theorem Wf.memTest (hwf : m.Wf) : m.memTest = true := by
  rw [Maps.memTest, Bool.and_eq_true, List.all_eq_true, List.all_eq_true]
  refine ⟨?_, ?_⟩
  · rintro ⟨k₁, r₁⟩ h₁
    rw [List.all_eq_true]
    rintro ⟨k₂, r₂⟩ h₂
    rw [mem_entries] at h₁ h₂
    by_cases hne : k₁ = k₂
    · simp [hne]
    · simp [hwf.disjoint k₁ k₂ r₁ r₂ h₁ h₂ hne]
  · rintro ⟨k, r⟩ h
    rw [mem_entries] at h
    simp [hwf.sized k r h]

/-! ### Lookups -/

variable {addr : Nat}

theorem inside_eq_true : r.inside addr = true ↔ r.baseAddr ≤ addr ∧ addr < r.bottomAddr := by
  rw [Mem64.inside, Bool.and_eq_true, decide_eq_true_eq, decide_eq_true_eq]

theorem searchMaps_eq_some_iff : m.searchMaps addr = some (key, r) ↔
      ∃ base, m.maps.floor addr = some (base, key) ∧ m.memSlab.get key = some r ∧
        r.inside addr = true := by
  simp only [searchMaps, Option.bind_eq_bind, Option.bind_eq_some_iff, Prod.exists,
    Option.ite_none_right_eq_some, Option.some.injEq, Prod.mk.injEq]
  constructor
  · rintro ⟨base, k, hfloor, r', hget, hinside, rfl, rfl⟩
    exact ⟨base, hfloor, hget, hinside⟩
  · rintro ⟨base, hfloor, hget, hinside⟩
    exact ⟨base, key, hfloor, r, hget, hinside, rfl, rfl⟩

theorem Wf.searchMaps_eq_some (hwf : m.Wf) :
    m.searchMaps addr = some (key, r) ↔ m.memSlab.get key = some r ∧ r.inside addr = true := by
  rw [searchMaps_eq_some_iff]
  refine ⟨fun ⟨_, _, hget, hinside⟩ => ⟨hget, hinside⟩, fun ⟨hget, hinside⟩ => ?_⟩
  rw [inside_eq_true] at hinside
  have hmem : (r.baseAddr, key) ∈ m.maps := (hwf.based _ _).mpr ⟨r, hget, rfl⟩
  refine ⟨r.baseAddr, ?_, hget, inside_eq_true.mpr hinside⟩
  rw [floor_eq_some]
  refine ⟨hmem, hinside.1, ?_⟩
  rintro ⟨base, key'⟩ hmem' hle
  obtain ⟨r', hget', rfl⟩ := (hwf.based _ _).mp hmem'
  -- a region that starts behind `r` and not behind the address would overlap `r`
  by_contra hlt
  have hne : key ≠ key' := by
    rintro rfl
    rw [hget] at hget'
    exact hlt (Nat.le_of_eq (congrArg Mem64.baseAddr (Option.some.inj hget'.symm)))
  have hsized := hwf.sized key' r' hget'
  have hdisjoint := overlaps_eq_false.mp (hwf.disjoint key key' r r' hget hget' hne)
  simp only at hle hlt
  omega

theorem Wf.get_baseAddr (hwf : m.Wf) {key : Nat} {r : Mem64} (hget : m.memSlab.get key = some r) :
    m.maps.get r.baseAddr = some key :=
  OrdMap.get_eq_some.mpr ((hwf.based _ _).mpr ⟨r, hget, rfl⟩)

theorem Wf.getMemByAddr_fst (hwf : m.Wf) (addr : Nat) :
    (m.getMemByAddr addr).1 = m.searchMaps addr := by
  rw [getMemByAddr]
  split
  · next r hget =>
    split
    · next hinside => exact (hwf.searchMaps_eq_some.mpr ⟨hget, hinside⟩).symm
    · rfl
  · rfl

theorem Wf.getMemByAddrMut_fst (hwf : m.Wf) (addr : Nat) :
    (m.getMemByAddrMut addr).1 = m.searchMaps addr := by
  rw [getMemByAddrMut]
  split
  · next r hget =>
    split
    · next hinside => exact (hwf.searchMaps_eq_some.mpr ⟨hget, hinside⟩).symm
    · rfl
  · rfl

theorem getMemByAddr_snd (m : Maps) (addr : Nat) :
    ∃ tlb, (m.getMemByAddr addr).2 = { m with tlb := tlb } := by
  rw [getMemByAddr]
  split
  · split
    · exact ⟨m.tlb, rfl⟩
    · exact ⟨_, rfl⟩
  · exact ⟨_, rfl⟩

theorem getMemByAddrMut_snd (m : Maps) (addr : Nat) :
    ∃ tlb, (m.getMemByAddrMut addr).2 = { m with tlb := tlb } := by
  rw [getMemByAddrMut]
  split
  · split
    · exact ⟨m.tlb, rfl⟩
    · exact ⟨_, rfl⟩
  · exact ⟨_, rfl⟩

theorem Wf.getMemByAddr_eq (hwf : m.Wf) (addr : Nat) :
    ∃ tlb, m.getMemByAddr addr = (m.searchMaps addr, { m with tlb := tlb }) := by
  obtain ⟨tlb, htlb⟩ := m.getMemByAddr_snd addr
  exact ⟨tlb, by rw [← htlb, ← hwf.getMemByAddr_fst]⟩

theorem Wf.getMemByAddrMut_eq (hwf : m.Wf) (addr : Nat) :
    ∃ tlb, m.getMemByAddrMut addr = (m.searchMaps addr, { m with tlb := tlb }) := by
  obtain ⟨tlb, htlb⟩ := m.getMemByAddrMut_snd addr
  exact ⟨tlb, by rw [← htlb, ← hwf.getMemByAddrMut_fst]⟩

end Maps

end Mwemu
