import Mathlib.Tactic
import Mwemu.Lib.Carry

/-!
# Checked machine arithmetic

An integer of the host is a bit vector, read as unsigned or as signed. The operations that panic on
overflow return nothing there: a sum past the largest value, a division by zero, and the division of
the smallest signed value by minus one.
-/

namespace Mwemu.Lib

def addU64 (a b : Nat) : Option Nat :=
  if a + b < 2 ^ 64 then some (a + b) else none

theorem addU64_eq_some {a b c : Nat} (hc : addU64 a b = some c) : a + b = c := by
  rw [addU64] at hc
  split at hc
  · exact Option.some.inj hc
  · cases hc

namespace HostInt

open BitVec

variable {n : Nat}

def addChecked (a b : BitVec n) : Option (BitVec n) :=
  if a.toNat + b.toNat < 2 ^ n then some (a + b) else none

def udivChecked (a b : BitVec n) : Option (BitVec n) :=
  if b = 0 then none else some (a / b)

def uremChecked (a b : BitVec n) : Option (BitVec n) :=
  if b = 0 then none else some (a % b)

def sdivChecked (a b : BitVec n) : Option (BitVec n) :=
  if b = 0 ∨ (a = BitVec.intMin n ∧ b = -1) then none else some (a.sdiv b)

def sremChecked (a b : BitVec n) : Option (BitVec n) :=
  if b = 0 ∨ (a = BitVec.intMin n ∧ b = -1) then none else some (a.srem b)

theorem addChecked_of_disjoint {a b : BitVec n} (hdisjoint : a &&& b = 0#n) :
    addChecked a b = some (a ||| b) := by
  have hnat := toNat_add_of_and_eq_zero hdisjoint
  rw [addChecked, if_pos (hnat ▸ (a + b).isLt), add_eq_or_of_and_eq_zero a b hdisjoint]

theorem udivChecked_of_ne {a b : BitVec n} (hb : b ≠ 0) : udivChecked a b = some (a / b) :=
  if_neg hb

theorem uremChecked_of_ne {a b : BitVec n} (hb : b ≠ 0) : uremChecked a b = some (a % b) :=
  if_neg hb

section Signed

variable {a b : BitVec n}

theorem sdivChecked_of_ne (hb : b ≠ 0) (hmin : ¬ (a = BitVec.intMin n ∧ b = -1)) :
    sdivChecked a b = some (a.sdiv b) :=
  if_neg fun h => h.elim hb hmin

theorem sremChecked_of_ne (hb : b ≠ 0) (hmin : ¬ (a = BitVec.intMin n ∧ b = -1)) :
    sremChecked a b = some (a.srem b) :=
  if_neg fun h => h.elim hb hmin

theorem not_min_of_lt (ha : -2 ^ (n - 1) < a.toInt) (hn : 0 < n) :
    ¬ (a = BitVec.intMin n ∧ b = -1) := by
  intro hmin
  have hlt : 2 ^ (n - 1) < 2 ^ n := Nat.pow_lt_pow_right (by decide) (by omega)
  rw [hmin.1, toInt_intMin, Nat.mod_eq_of_lt hlt] at ha
  push_cast at ha
  exact lt_irrefl _ ha

theorem toInt_setWidth_of_fits {m : Nat} (hm : 0 < m) (hmn : m ≤ n) (hfits : FitsSigned m a.toInt) :
    (a.setWidth m).toInt = a.toInt := by
  obtain ⟨hlow, hhigh⟩ := hfits
  have hhalf : (2 : Int) ^ m = 2 * 2 ^ (m - 1) := by
    rw [← pow_succ', Nat.sub_add_cancel hm]
  calc (a.setWidth m).toInt = (a.toNat : Int).bmod (2 ^ m) := toInt_setWidth a
    _ = ((a.toNat : Int).bmod (2 ^ n)).bmod (2 ^ m) :=
        (Int.bmod_bmod_of_dvd (Nat.pow_dvd_pow 2 hmn)).symm
    _ = a.toInt.bmod (2 ^ m) := by rw [← toInt_eq_toNat_bmod]
    _ = a.toInt := by
        apply Int.bmod_eq_of_le
        · push_cast
          omega
        · push_cast
          omega

end Signed

variable {m : Nat}

theorem fits_of_abs_lt {b r : Int} (hb : FitsSigned m b) (hr : |r| < |b|) : FitsSigned m r := by
  obtain ⟨hlow, hhigh⟩ := hb
  rw [Int.abs_eq_natAbs, Int.abs_eq_natAbs] at hr
  constructor <;> omega

theorem shiftLeft_or_setWidth (high low : BitVec m) :
    (high.setWidth n <<< m) ||| low.setWidth n = (high ++ low).setWidth n := by
  apply eq_of_getLsbD_eq
  intro i hi
  rw [getLsbD_or, getLsbD_shiftLeft, getLsbD_setWidth,
    getLsbD_setWidth, getLsbD_setWidth, getLsbD_append]
  by_cases hlow : i < m
  · simp [hlow, hi]
  · rw [if_neg hlow, getLsbD_of_ge low i (by omega)]
    simp [hlow, hi, show i - m < n by omega]

theorem addChecked_halves (high low : BitVec m) :
    addChecked (high.setWidth n <<< m) (low.setWidth n) = some ((high ++ low).setWidth n) := by
  rw [addChecked_of_disjoint, shiftLeft_or_setWidth]
  apply eq_of_getLsbD_eq
  intro i hi
  rw [getLsbD_and, getLsbD_shiftLeft, getLsbD_setWidth, getLsbD_setWidth, getLsbD_zero]
  by_cases hlow : i < m
  · simp [hlow]
  · rw [getLsbD_of_ge low i (by omega)]
    simp

/-- Truncated division: the remainder is smaller than the divisor and has the sign of the
dividend. -/
structure Quotient (a b q r : Int) : Prop where
  eq : a = q * b + r
  small : |r| < |b|
  sign : r = 0 ∨ r.sign = a.sign

theorem quotient_tdiv {a b : Int} (hb : b ≠ 0) : Quotient a b (a.tdiv b) (a.tmod b) := by
  constructor
  · rw [Int.mul_comm]
    exact (Int.mul_tdiv_add_tmod a b).symm
  · have hmod := Int.natAbs_tmod a b
    have hlt := Nat.mod_lt a.natAbs (Int.natAbs_pos.mpr hb)
    rw [Int.abs_eq_natAbs, Int.abs_eq_natAbs]
    omega
  · rw [Int.sign_tmod]
    by_cases hdvd : b ∣ a
    · exact Or.inl (Int.tmod_eq_zero_of_dvd hdvd)
    · exact Or.inr (if_neg hdvd)

end HostInt

end Mwemu.Lib
