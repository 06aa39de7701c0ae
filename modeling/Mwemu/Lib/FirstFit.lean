import Mathlib.Data.List.Basic

/-!
# First fit

A list of intervals `[start, stop)` in ascending order leaves gaps: before the first one, from a
given bottom, and between neighbours. First fit takes the first gap that is longer than what is
needed.
-/

namespace Mwemu.Lib

/-- The first gap from `bottom` on that is longer than `need` is `[low, high)`. -/
inductive FirstGap (need : Nat) : Nat → List (Nat × Nat) → Nat → Nat → Prop
  | here {bottom start stop : Nat} {rest : List (Nat × Nat)} (hfits : need < start - bottom) :
      FirstGap need bottom ((start, stop) :: rest) bottom start
  | later {bottom start stop low high : Nat} {rest : List (Nat × Nat)}
      (hshort : start - bottom ≤ need) (hrest : FirstGap need stop rest low high) :
      FirstGap need bottom ((start, stop) :: rest) low high

def firstFit (need : Nat) : Nat → List (Nat × Nat) → Option Nat
  | _, [] => none
  | bottom, (start, stop) :: rest =>
    if need < start - bottom then some bottom else firstFit need stop rest

/-- The intervals are disjoint, in ascending order and not below `bottom`. -/
def Ascending : Nat → List (Nat × Nat) → Prop
  | _, [] => True
  | bottom, (start, stop) :: rest => bottom ≤ start ∧ start ≤ stop ∧ Ascending stop rest

variable {need bottom low high : Nat} {l : List (Nat × Nat)}

theorem firstFit_eq_some_iff :
    firstFit need bottom l = some low ↔ ∃ high, FirstGap need bottom l low high := by
  induction l generalizing bottom with
  | nil =>
    refine ⟨fun hnone => (nomatch hnone), ?_⟩
    rintro ⟨high, hgap⟩
    cases hgap
  | cons interval rest ih =>
    obtain ⟨start, stop⟩ := interval
    unfold firstFit
    by_cases hfits : need < start - bottom
    · rw [if_pos hfits, Option.some.injEq]
      constructor
      · rintro rfl
        exact ⟨start, .here hfits⟩
      · rintro ⟨high, hgap⟩
        cases hgap with
        | here => rfl
        | later hshort => omega
    rw [if_neg hfits, ih]
    constructor
    · rintro ⟨high, hgap⟩
      exact ⟨high, .later (Nat.le_of_not_lt hfits) hgap⟩
    · rintro ⟨high, hgap⟩
      cases hgap with
      | here hfits' => exact absurd hfits' hfits
      | later _ hrest => exact ⟨high, hrest⟩

namespace FirstGap

section

variable (hgap : FirstGap need bottom l low high)
include hgap

theorem fits : need < high - low := by
  induction hgap with
  | here hfits => exact hfits
  | later _ _ ih => exact ih

theorem exists_high : ∃ stop, (high, stop) ∈ l := by
  induction hgap with
  | here => exact ⟨_, List.mem_cons_self⟩
  | later _ _ ih =>
    obtain ⟨stop, hmem⟩ := ih
    exact ⟨stop, List.mem_cons_of_mem _ hmem⟩

theorem low_cases : low = bottom ∨ ∃ start, (start, low) ∈ l := by
  induction hgap with
  | here => exact .inl rfl
  | later _ _ ih =>
    rcases ih with rfl | ⟨start, hmem⟩
    · exact .inr ⟨_, List.mem_cons_self⟩
    · exact .inr ⟨start, List.mem_cons_of_mem _ hmem⟩

theorem bottom_le (hl : Ascending bottom l) : bottom ≤ low := by
  induction hgap with
  | here => exact Nat.le_refl _
  | later _ _ ih =>
    obtain ⟨hstart, hstop, hrest⟩ := hl
    have hlow := ih hrest
    omega

theorem apart (hl : Ascending bottom l)
    {interval : Nat × Nat} (hmem : interval ∈ l) : interval.2 ≤ low ∨ high ≤ interval.1 := by
  have hafter : ∀ {e : Nat} {l : List (Nat × Nat)}, Ascending e l → ∀ i ∈ l, e ≤ i.1 := by
    intro e l
    induction l generalizing e with
    | nil => exact fun _ _ hmem => absurd hmem List.not_mem_nil
    | cons head tail ih =>
      rintro ⟨hstart, hstop, htail⟩ i hmem
      rcases List.mem_cons.mp hmem with rfl | hmem
      · exact hstart
      · have hle := ih htail i hmem
        omega
  induction hgap with
  | here =>
    obtain ⟨-, hstop, hrest⟩ := hl
    rcases List.mem_cons.mp hmem with rfl | hmem
    · exact .inr (Nat.le_refl _)
    · have hle := hafter hrest interval hmem
      exact .inr (by omega)
  | later _ hgap ih =>
    obtain ⟨-, hstop, hrest⟩ := hl
    rcases List.mem_cons.mp hmem with rfl | hmem
    · exact .inl (hgap.bottom_le hrest)
    · exact ih hrest hmem

end

end FirstGap

end Mwemu.Lib
