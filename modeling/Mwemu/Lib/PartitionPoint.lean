import Mathlib.Tactic.Common

/-!
# Partition points

The binary search for the first element of a list that fails a predicate. It always makes the same
number of steps for a given length, and it is only meaningful on a list that the predicate
partitions: on such a list it returns the length of the part that satisfies the predicate.
-/

namespace Mwemu.Lib

/-- `size` candidates from `base` on are left; half of them are dropped at a time. -/
def halveFrom (p : Nat → Bool) : (fuel size base : Nat) → Nat
  | 0, _, base => base
  | fuel + 1, size, base =>
    if 1 < size then
      halveFrom p fuel (size - size / 2) (if p (base + size / 2) then base + size / 2 else base)
    else base

variable {α : Type*} {p : α → Bool}

def partitionPoint (p : α → Bool) (xs : List α) : Nat :=
  let holds (i : Nat) := xs[i]?.any p
  if xs.length = 0 then 0
  else
    let base := halveFrom holds xs.length xs.length 0
    if holds base then base + 1 else base

theorem halveFrom_lt {p : Nat → Bool} {fuel size base bound : Nat} (hsize : 0 < size)
    (hbound : base + size ≤ bound) : halveFrom p fuel size base < bound := by
  induction fuel generalizing size base with
  | zero =>
    rw [halveFrom]
    omega
  | succ fuel ih =>
    rw [halveFrom]
    split
    · apply ih (by omega)
      split <;> omega
    · omega

theorem partitionPoint_le (p : α → Bool) (xs : List α) : partitionPoint p xs ≤ xs.length := by
  rw [partitionPoint]
  split
  · exact Nat.zero_le _
  · next hlen =>
    have hlt : halveFrom (fun i => xs[i]?.any p) xs.length xs.length 0 < xs.length :=
      halveFrom_lt (Nat.pos_of_ne_zero hlen) (Nat.le_of_eq (Nat.zero_add _))
    dsimp only
    split <;> omega

theorem halveFrom_of_lt {count fuel size base : Nat} (hfuel : size ≤ fuel + 1)
    (hbase : base = 0 ∨ base < count) (hcount : count ≤ base + size) :
    let found := halveFrom (fun i => decide (i < count)) fuel size base
    (found = 0 ∨ found < count) ∧ count ≤ found + 1 := by
  induction fuel generalizing size base with
  | zero =>
    simp only [halveFrom]
    exact ⟨hbase, by omega⟩
  | succ fuel ih =>
    simp only [halveFrom, decide_eq_true_eq]
    split
    · next hsize =>
      by_cases hmid : base + size / 2 < count
      · rw [if_pos hmid]
        exact ih (by omega) (.inr hmid) (by omega)
      · rw [if_neg hmid]
        exact ih (by omega) hbase (by omega)
    · next hsize => exact ⟨hbase, by omega⟩

theorem any_getElem?_append {ys zs : List α} (hys : ∀ y ∈ ys, p y)
    (hzs : ∀ z ∈ zs, ¬ p z) (i : Nat) : (ys ++ zs)[i]?.any p = decide (i < ys.length) := by
  by_cases hi : i < ys.length
  · rw [List.getElem?_append_left hi, List.getElem?_eq_getElem hi, Option.any_some,
      hys _ (List.getElem_mem hi), decide_eq_true hi]
  · rw [List.getElem?_append_right (Nat.le_of_not_lt hi), decide_eq_false hi]
    cases hz : zs[i - ys.length]? with
    | none => rfl
    | some z => exact Bool.eq_false_iff.mpr (hzs z (List.mem_of_getElem? hz))

theorem partitionPoint_append {ys zs : List α} (hys : ∀ y ∈ ys, p y)
    (hzs : ∀ z ∈ zs, ¬ p z) : partitionPoint p (ys ++ zs) = ys.length := by
  have hlen : ys.length ≤ (ys ++ zs).length := by simp
  obtain ⟨hlow, hhigh⟩ := halveFrom_of_lt (Nat.le_succ (ys ++ zs).length) (.inl rfl)
    (by omega : ys.length ≤ 0 + (ys ++ zs).length)
  rw [partitionPoint]
  simp only [any_getElem?_append hys hzs, decide_eq_true_eq]
  split
  · omega
  · split <;> omega

theorem exists_split_of_pairwise {xs : List α} (hpair : xs.Pairwise fun a b => p b → p a) :
    ∃ ys zs, xs = ys ++ zs ∧ (∀ y ∈ ys, p y) ∧ ∀ z ∈ zs, ¬ p z := by
  induction xs with
  | nil => exact ⟨[], [], rfl, by simp, by simp⟩
  | cons x xs ih =>
    obtain ⟨hx, hxs⟩ := List.pairwise_cons.mp hpair
    by_cases hpx : p x
    · obtain ⟨ys, zs, rfl, hys, hzs⟩ := ih hxs
      exact ⟨x :: ys, zs, rfl, List.forall_mem_cons.mpr ⟨hpx, hys⟩, hzs⟩
    · refine ⟨[], x :: xs, rfl, by simp, List.forall_mem_cons.mpr ⟨hpx, fun z hz hpz => ?_⟩⟩
      exact hpx (hx z hz hpz)

theorem exists_inversion_of_not_pairwise {xs : List α}
    (hpair : ¬ xs.Pairwise fun a b => p b → p a) :
    ∃ ws v ys zs, xs = ws ++ v :: (ys ++ zs) ∧ ¬ p v ∧ ys ≠ [] ∧ (∀ y ∈ ys, p y) ∧
      ∀ z ∈ zs, ¬ p z := by
  induction xs with
  | nil => exact absurd List.Pairwise.nil hpair
  | cons x xs ih =>
    by_cases hxs : xs.Pairwise fun a b => p b → p a
    · obtain ⟨ys, zs, rfl, hys, hzs⟩ := exists_split_of_pairwise hxs
      have hx : ¬ ∀ y ∈ ys ++ zs, p y → p x := fun h => hpair (List.pairwise_cons.mpr ⟨h, hxs⟩)
      push Not at hx
      obtain ⟨y, hy, hpy, hpx⟩ := hx
      have hmem : y ∈ ys := (List.mem_append.mp hy).resolve_right fun hz => hzs y hz hpy
      exact ⟨[], x, ys, zs, rfl, hpx, List.ne_nil_of_mem hmem, hys, hzs⟩
    · obtain ⟨ws, v, ys, zs, rfl, hrest⟩ := ih hxs
      exact ⟨x :: ws, v, ys, zs, rfl, hrest⟩

end Mwemu.Lib
