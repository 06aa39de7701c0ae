import Mathlib.Algebra.Order.Ring.Nat
import Mathlib.Data.List.Pairwise
import Mathlib.Data.List.Sort

/-!
# Ordered maps

A map with numbers for keys as the list of its entries, strictly sorted by key; the structure
carries the order. Ranges are filters of the list, so the entries of a range come in the order of
their keys, and the nearest entry on either side is the end of a range.
-/

namespace Mwemu.Lib

open List

structure OrdMap (β : Type) where
  toList : List (Nat × β)
  sorted : toList.Pairwise fun a b => a.1 < b.1

namespace OrdMap

variable {β : Type} (m : OrdMap β) {entry : Nat × β}

instance : Membership (Nat × β) (OrdMap β) :=
  ⟨fun m entry => entry ∈ m.toList⟩

theorem mem_iff : entry ∈ m ↔ entry ∈ m.toList :=
  Iff.rfl

def empty : OrdMap β :=
  ⟨[], List.Pairwise.nil⟩

def get (key : Nat) : Option β :=
  (m.toList.find? fun entry => entry.1 == key).map Prod.snd

def insert (key : Nat) (value : β) : OrdMap β where
  toList := m.toList.filter (fun entry => entry.1 < key) ++
    (key, value) :: m.toList.filter (fun entry => key < entry.1)
  sorted := by
    rw [List.pairwise_append, List.pairwise_cons]
    refine ⟨m.sorted.filter _, ⟨?_, m.sorted.filter _⟩, ?_⟩
    · intro entry hentry
      simpa using (List.mem_filter.mp hentry).2
    intro low hlow high hhigh
    have hlow' : low.1 < key := by simpa using (List.mem_filter.mp hlow).2
    rcases List.mem_cons.mp hhigh with rfl | hhigh
    · exact hlow'
    · have hhigh' : key < high.1 := by simpa using (List.mem_filter.mp hhigh).2
      exact hlow'.trans hhigh'

def remove (key : Nat) : OrdMap β :=
  ⟨m.toList.filter fun entry => entry.1 != key, m.sorted.filter _⟩

def range (low high : Nat) : List (Nat × β) :=
  m.toList.filter fun entry => decide (low ≤ entry.1) && decide (entry.1 < high)

def floor (key : Nat) : Option (Nat × β) :=
  (m.toList.filter fun entry => entry.1 ≤ key).getLast?

def ceil (key : Nat) : Option (Nat × β) :=
  (m.toList.filter fun entry => key ≤ entry.1).head?

variable {m}

theorem entry_eq {x y : Nat × β} (hx : x ∈ m) (hy : y ∈ m) (hkey : x.1 = y.1) : x = y := by
  obtain ⟨entries, hsorted⟩ := m
  rw [mem_iff] at hx hy
  simp only at hx hy
  induction hsorted with
  | nil => cases hx
  | cons hhead _ ih =>
    rcases mem_cons.mp hx with rfl | hx' <;> rcases mem_cons.mp hy with rfl | hy'
    · rfl
    · exact absurd hkey (Nat.ne_of_lt (hhead y hy'))
    · exact absurd hkey.symm (Nat.ne_of_lt (hhead x hx'))
    · exact ih hx' hy'

variable {key : Nat} {value : β}

theorem get_eq_some : m.get key = some value ↔ (key, value) ∈ m := by
  rw [get, Option.map_eq_some_iff]
  constructor
  · rintro ⟨⟨k, v⟩, hfind, rfl⟩
    have hk : k = key := by simpa using List.find?_some hfind
    exact hk ▸ mem_of_find?_eq_some hfind
  intro hmem
  have hfound : (m.toList.find? fun entry => entry.1 == key).isSome := by
    rw [List.find?_isSome]
    exact ⟨(key, value), hmem, beq_self_eq_true key⟩
  obtain ⟨entry, hentry⟩ := Option.isSome_iff_exists.mp hfound
  have hk : entry.1 = key := by simpa using List.find?_some hentry
  have heq := entry_eq (mem_of_find?_eq_some hentry) hmem hk
  exact ⟨entry, hentry, by rw [heq]⟩

@[simp] theorem not_mem_empty (entry : Nat × β) : entry ∉ (empty : OrdMap β) :=
  not_mem_nil

theorem mem_insert :
    entry ∈ m.insert key value ↔ entry = (key, value) ∨ entry ∈ m ∧ entry.1 ≠ key := by
  rw [mem_iff, insert, mem_append, mem_cons, mem_filter, mem_filter, mem_iff]
  simp only [decide_eq_true_eq]
  constructor
  · rintro (⟨hmem, hlt⟩ | rfl | ⟨hmem, hlt⟩)
    · exact .inr ⟨hmem, Nat.ne_of_lt hlt⟩
    · exact .inl rfl
    · exact .inr ⟨hmem, Nat.ne_of_gt hlt⟩
  rintro (rfl | ⟨hmem, hne⟩)
  · exact .inr (.inl rfl)
  · rcases Nat.lt_or_gt_of_ne hne with hlt | hgt
    · exact .inl ⟨hmem, hlt⟩
    · exact .inr (.inr ⟨hmem, hgt⟩)

theorem mem_remove : entry ∈ m.remove key ↔ entry ∈ m ∧ entry.1 ≠ key := by
  rw [mem_iff, remove, mem_filter, bne_iff_ne, mem_iff]

theorem get_insert_self (key : Nat) (value : β) : (m.insert key value).get key = some value :=
  get_eq_some.mpr (mem_insert.mpr (.inl rfl))

theorem get_insert_of_ne {other : Nat} (hne : other ≠ key) :
    (m.insert key value).get other = m.get other := by
  refine Option.ext fun v => ?_
  rw [get_eq_some, get_eq_some, mem_insert]
  simp [hne]

theorem get_remove_of_ne {other : Nat} (hne : other ≠ key) :
    (m.remove key).get other = m.get other := by
  refine Option.ext fun v => ?_
  rw [get_eq_some, get_eq_some, mem_remove]
  simp [hne]

theorem mem_range {low high : Nat} :
    entry ∈ m.range low high ↔ entry ∈ m ∧ low ≤ entry.1 ∧ entry.1 < high := by
  rw [range, mem_filter, Bool.and_eq_true, decide_eq_true_eq, decide_eq_true_eq, mem_iff]

theorem range_sorted (low high : Nat) : (m.range low high).Pairwise fun a b => a.1 < b.1 :=
  m.sorted.filter _

theorem floor_eq_some : m.floor key = some entry ↔
      entry ∈ m ∧ entry.1 ≤ key ∧ ∀ other ∈ m, other.1 ≤ key → other.1 ≤ entry.1 := by
  have hspec : ∀ entry, m.floor key = some entry →
      entry ∈ m ∧ entry.1 ≤ key ∧ ∀ other ∈ m, other.1 ≤ key → other.1 ≤ entry.1 := by
    intro entry hfloor
    rw [floor, List.getLast?_eq_some_iff] at hfloor
    obtain ⟨before, heq⟩ := hfloor
    have hsorted := m.sorted.filter fun entry => decide (entry.1 ≤ key)
    have hmem : entry ∈ m.toList.filter fun entry => decide (entry.1 ≤ key) := by simp [heq]
    rw [mem_filter, decide_eq_true_eq] at hmem
    refine ⟨hmem.1, hmem.2, fun other hother hle => ?_⟩
    have hother' : other ∈ m.toList.filter fun entry => decide (entry.1 ≤ key) :=
      mem_filter.mpr ⟨hother, by simpa using hle⟩
    rw [heq] at hother' hsorted
    rcases mem_append.mp hother' with hbefore | hlast
    · exact Nat.le_of_lt ((pairwise_append.mp hsorted).2.2 other hbefore entry (by simp))
    · rw [mem_singleton.mp hlast]
  refine ⟨hspec entry, fun ⟨hmem, hle, hmax⟩ => ?_⟩
  cases hfloor : m.floor key with
  | none =>
    rw [floor, List.getLast?_eq_none_iff, filter_eq_nil_iff] at hfloor
    exact absurd (by simpa using hle) (hfloor entry hmem)
  | some found =>
    obtain ⟨hmem', hle', hmax'⟩ := hspec found hfloor
    have hkey : found.1 = entry.1 := Nat.le_antisymm (hmax found hmem' hle') (hmax' entry hmem hle)
    rw [entry_eq hmem' hmem hkey]

theorem floor_eq_none : m.floor key = none ↔ ∀ entry ∈ m, key < entry.1 := by
  rw [floor, List.getLast?_eq_none_iff, filter_eq_nil_iff]
  refine forall_congr' fun entry => imp_congr_right fun _ => ?_
  rw [decide_eq_true_eq, Nat.not_le]

theorem ceil_eq_some (hceil : m.ceil key = some entry) : entry ∈ m ∧ key ≤ entry.1 := by
  have hmem := mem_of_head? hceil
  rw [mem_filter, decide_eq_true_eq] at hmem
  exact hmem

theorem ceil_of_mem (hmem : (key, value) ∈ m) : m.ceil key = some (key, value) := by
  have hfilter : (key, value) ∈ m.toList.filter fun entry => decide (key ≤ entry.1) :=
    mem_filter.mpr ⟨hmem, decide_eq_true (Nat.le_refl key)⟩
  have hsorted := m.sorted.filter fun entry => decide (key ≤ entry.1)
  have hceil : ∀ entry, m.ceil key = some entry → entry ∈ m ∧ key ≤ entry.1 := fun _ => ceil_eq_some
  unfold ceil at hceil ⊢
  cases hlist : m.toList.filter fun entry => decide (key ≤ entry.1) with
  | nil =>
    rw [hlist] at hfilter
    cases hfilter
  | cons first rest =>
    rw [hlist] at hfilter hsorted hceil
    rcases mem_cons.mp hfilter with rfl | hrest
    · rfl
    · -- a first entry before the one at `key` would not be in the range
      have hlt := (pairwise_cons.mp hsorted).1 _ hrest
      have hle := (hceil first rfl).2
      exact absurd hlt (Nat.not_lt_of_le hle)

end OrdMap

end Mwemu.Lib
