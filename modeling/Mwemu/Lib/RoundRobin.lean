import Mathlib.Data.List.Basic

/-!
# Round-robin search

The indices below `n` in cyclic order, from the one behind `cur` to `cur` itself, and the first of
them with a property.
-/

namespace Mwemu.Lib

/-- The indices in the order in which a round-robin search from `cur` visits them. -/
def turns (n cur : Nat) : List Nat := (List.range n).map fun i => (cur + (i + 1)) % n

variable {n cur : Nat}

theorem mem_turns {j : Nat} (hn : 0 < n) : j ∈ turns n cur ↔ j < n := by
  rw [turns, List.mem_map]
  constructor
  · rintro ⟨i, -, rfl⟩
    exact Nat.mod_lt _ hn
  intro hj
  -- one round further than the distance, so that the subtraction does not truncate
  have hcur := Nat.mod_lt cur hn
  refine ⟨(j + n - 1 - cur % n) % n, List.mem_range.mpr (Nat.mod_lt _ hn), ?_⟩
  calc
    (cur + ((j + n - 1 - cur % n) % n + 1)) % n = (cur % n + (j + n - 1 - cur % n + 1)) % n := by
      simp [Nat.add_mod]
    _ = (j + n) % n := by
      congr 1
      omega
    _ = j := by rw [Nat.add_mod_right, Nat.mod_eq_of_lt hj]

def nextTurn (n cur : Nat) (p : Nat → Bool) : Option Nat := (turns n cur).find? p

theorem nextTurn_eq_some {j : Nat} {p : Nat → Bool} (hnext : nextTurn n cur p = some j) :
    p j = true ∧ j < n := by
  have hmem := List.mem_of_find?_eq_some hnext
  have hn : 0 < n := by
    rcases Nat.eq_zero_or_pos n with rfl | hn
    · cases hmem
    · exact hn
  exact ⟨List.find?_some hnext, (mem_turns hn).mp hmem⟩

theorem nextTurn_eq_none {p : Nat → Bool} : nextTurn n cur p = none ↔ ∀ j < n, p j = false := by
  rw [nextTurn, List.find?_eq_none]
  rcases Nat.eq_zero_or_pos n with rfl | hn
  · exact iff_of_true (fun j hj => (List.not_mem_nil hj).elim)
      fun j hj => absurd hj (Nat.not_lt_zero j)
  · exact ⟨fun hall j hj => Bool.eq_false_iff.mpr (hall j ((mem_turns hn).mpr hj)),
      fun hall j hj => Bool.eq_false_iff.mp (hall j ((mem_turns hn).mp hj))⟩

end Mwemu.Lib
