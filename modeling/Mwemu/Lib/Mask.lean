import Mathlib.Data.Nat.Bitwise

/-!
# Masks of high bits

Rounding down to a multiple of a power of two is written as a mask in code and as a quotient in
arithmetic.
-/

namespace Mwemu.Lib

theorem and_two_pow_sub_two_pow {w k x : Nat} (hk : k ≤ w) (hx : x < 2 ^ w) :
    x &&& (2 ^ w - 2 ^ k) = x / 2 ^ k * 2 ^ k := by
  have hmask : 2 ^ w - 2 ^ k = (2 ^ (w - k) - 1) <<< k := by
    rw [Nat.shiftLeft_eq, Nat.sub_mul, Nat.one_mul, ← Nat.pow_add, Nat.sub_add_cancel hk]
  have hquotient : x / 2 ^ k * 2 ^ k = (x >>> k) <<< k := by
    rw [Nat.shiftLeft_eq, Nat.shiftRight_eq_div_pow]
  rw [hmask, hquotient]
  apply Nat.eq_of_testBit_eq
  intro i
  rw [Nat.testBit_and, Nat.testBit_shiftLeft, Nat.testBit_shiftLeft, Nat.testBit_two_pow_sub_one,
    Nat.testBit_shiftRight]
  by_cases hlow : k ≤ i
  · rw [Nat.add_sub_cancel' hlow]
    by_cases hhigh : i < w
    · have hbit : i - k < w - k := by omega
      simp [hlow, hbit]
    · have hlt : x < 2 ^ i :=
        Nat.lt_of_lt_of_le hx (Nat.pow_le_pow_right (by decide) (Nat.le_of_not_lt hhigh))
      simp [Nat.testBit_lt_two_pow hlt]
  · simp [hlow]

end Mwemu.Lib
