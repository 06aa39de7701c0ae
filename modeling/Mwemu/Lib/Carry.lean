import Mathlib.Algebra.Order.Ring.Nat
import Mathlib.Data.BitVec
import Mathlib.Tactic.Ring

/-!
# Carries and borrows of an addition

`BitVec.carry i x y c` is the carry into bit `i` of `x + y + c`. This module reads it off the three
words of a finished addition, does the same for the borrows of a subtraction, and turns the two
topmost carries into the signed overflow condition.
-/

namespace Mwemu.Lib

open BitVec Nat

variable {w : Nat}

def borrow (i : Nat) (x y : BitVec w) (c : Bool) : Bool :=
  decide (x.toNat % 2 ^ i < y.toNat % 2 ^ i + c.toNat)

def signed (w : Nat) (x : Nat) : Int :=
  if x < 2 ^ (w - 1) then x else x - 2 ^ w

/-- The number fits in `w` bits as a two's complement number. -/
def FitsSigned (w : Nat) (z : Int) : Prop :=
  -2 ^ (w - 1) ≤ z ∧ z < 2 ^ (w - 1)

instance (w : Nat) (z : Int) : Decidable (FitsSigned w z) :=
  inferInstanceAs (Decidable (_ ∧ _))

variable {i : Nat} (x y : BitVec w)

theorem carry_succ_eq_of_sum (c : Bool) (hi : i < w) : BitVec.carry (i + 1) x y c =
      (x.getLsbD i && y.getLsbD i || (x.getLsbD i || y.getLsbD i) &&
          !(x + y + BitVec.setWidth w (BitVec.ofBool c)).getLsbD i) := by
  rw [getLsbD_add_add_bool hi, carry_succ]
  cases x.getLsbD i <;> cases y.getLsbD i <;> cases BitVec.carry i x y c <;> rfl

theorem toNat_not_mod (y : BitVec w) (hi : i ≤ w) :
    (~~~y).toNat % 2 ^ i = 2 ^ i - 1 - y.toNat % 2 ^ i := by
  apply eq_of_testBit_eq
  intro j
  have hlow : y.toNat % 2 ^ i < 2 ^ i := Nat.mod_lt _ (Nat.two_pow_pos i)
  rw [show 2 ^ i - 1 - y.toNat % 2 ^ i = 2 ^ i - (y.toNat % 2 ^ i + 1) by omega,
    testBit_two_pow_sub_succ hlow, testBit_mod_two_pow, testBit_mod_two_pow]
  by_cases hj : j < i
  · have hjw : j < w := by omega
    have hnot : (~~~y).getLsbD j = !y.getLsbD j := by simp [hjw]
    simpa [hj, BitVec.getLsbD] using hnot
  · simp [hj]

theorem carry_not_eq_not_borrow (c : Bool) (hi : i ≤ w) :
    BitVec.carry i x (~~~y) (!c) = !borrow i x y c := by
  have hx : x.toNat % 2 ^ i < 2 ^ i := Nat.mod_lt _ (Nat.two_pow_pos i)
  have hy : y.toNat % 2 ^ i < 2 ^ i := Nat.mod_lt _ (Nat.two_pow_pos i)
  simp only [BitVec.carry, borrow, toNat_not_mod y hi]
  cases c <;> simp only [Bool.not_false, Bool.not_true, Bool.toNat_true, Bool.toNat_false,
      ← decide_not, decide_eq_decide] <;>
    omega

theorem sub_sub_eq_add_not_add (c : Bool) :
    x - y - BitVec.setWidth w (BitVec.ofBool c) =
      x + ~~~y + BitVec.setWidth w (BitVec.ofBool !c) := by
  have hneg : -y = ~~~y + 1#w := neg_eq_not_add y
  have hone : BitVec.setWidth w (BitVec.ofBool true) = 1#w := by
    apply eq_of_toNat_eq
    simp
  have hzero : BitVec.setWidth w (BitVec.ofBool false) = 0#w := by
    apply eq_of_toNat_eq
    simp
  cases c
  · rw [Bool.not_false, hone, hzero, BitVec.sub_zero, BitVec.sub_eq_add_neg, hneg, BitVec.add_assoc]
  · rw [Bool.not_true, hone, hzero, BitVec.add_zero, BitVec.sub_eq_add_neg x, hneg,
      ← BitVec.add_assoc, BitVec.add_sub_cancel]

theorem borrow_succ_eq_of_difference (c : Bool) (hi : i < w) :
    borrow (i + 1) x y c = (!x.getLsbD i && y.getLsbD i || (!x.getLsbD i ^^ y.getLsbD i) &&
          (x - y - BitVec.setWidth w (BitVec.ofBool c)).getLsbD i) := by
  have hborrow : borrow (i + 1) x y c = !BitVec.carry (i + 1) x (~~~y) (!c) := by
    rw [carry_not_eq_not_borrow x y c hi, Bool.not_not]
  have hnot : (~~~y).getLsbD i = !y.getLsbD i := by simp [hi]
  rw [hborrow, sub_sub_eq_add_not_add, getLsbD_add_add_bool hi, carry_succ, hnot]
  cases x.getLsbD i <;> cases y.getLsbD i <;> cases BitVec.carry i x (~~~y) (!c) <;> rfl

/-! ### The two topmost carries

With `w = k + 1` the word is its sign bit and the `k` bits below, so `x % 2 ^ k` is `x` without the
sign, and a signed result overflows exactly when the carries into and out of the sign bit differ. -/

variable {k : Nat}

theorem mod_two_pow_eq_ite {x : Nat} (hx : x < 2 ^ (k + 1)) :
    x % 2 ^ k = if x < 2 ^ k then x else x - 2 ^ k := by
  rw [pow_succ] at hx
  split
  · exact mod_eq_of_lt ‹_›
  · rw [mod_eq_sub_mod (by omega), mod_eq_of_lt (by omega)]

theorem decide_xor_decide {p q r : Prop} [Decidable p] [Decidable q] [Decidable r]
    (h : (p ↔ q) ↔ r) : (decide p ^^ decide q) = !decide r := by
  by_cases hp : p <;> by_cases hq : q <;> simp_all

theorem carry_xor_carry_eq_not_fits (x y : BitVec (k + 1)) (c : Bool) :
    (BitVec.carry (k + 1) x y c ^^ BitVec.carry k x y c) = !decide (FitsSigned (k + 1)
        (signed (k + 1) x.toNat + signed (k + 1) y.toNat + c.toNat)) := by
  have hx := x.isLt
  have hy := y.isLt
  have hc := Bool.toNat_le c
  rw [carry_width, BitVec.carry, mod_two_pow_eq_ite hx, mod_two_pow_eq_ite hy]
  apply decide_xor_decide
  simp only [FitsSigned, signed, Nat.add_sub_cancel, pow_succ] at hx hy ⊢
  obtain ⟨n, hn⟩ : ∃ n : Nat, 2 ^ k = n := ⟨_, rfl⟩
  have hcast : (2 : Int) ^ k = n := by rw [← hn]; push_cast; rfl
  rw [hn] at hx hy
  rw [hcast, hn]
  split <;> split <;> omega

theorem borrow_xor_borrow_eq_not_fits (x y : BitVec (k + 1)) (c : Bool) :
    (borrow (k + 1) x y c ^^ borrow k x y c) = !decide (FitsSigned (k + 1)
        (signed (k + 1) x.toNat - signed (k + 1) y.toNat - c.toNat)) := by
  have hx := x.isLt
  have hy := y.isLt
  have hc := Bool.toNat_le c
  rw [borrow, borrow, mod_eq_of_lt hx, mod_eq_of_lt hy, mod_two_pow_eq_ite hx,
    mod_two_pow_eq_ite hy]
  apply decide_xor_decide
  simp only [FitsSigned, signed, Nat.add_sub_cancel, pow_succ] at hx hy ⊢
  obtain ⟨n, hn⟩ : ∃ n : Nat, 2 ^ k = n := ⟨_, rfl⟩
  have hcast : (2 : Int) ^ k = n := by rw [← hn]; push_cast; rfl
  rw [hn] at hx hy
  rw [hcast, hn]
  split <;> split <;> omega

end Mwemu.Lib
