import Mathlib.Tactic.Ring
import Mwemu.Maps.Bytes

/-!
# Doubles in the registers of the FPU

A double is kept with an explicit integer bit. `set_f64` leaves that bit out of infinities and NaNs,
and `get_f64` takes the bit for a fraction that is not zero.
-/

namespace Mwemu.Fpu

open Nat

def fpu80BitsMax : Nat := 2 ^ 80 - 1

def f64ExpBias : Int := 1023

def f80ExpBias : Int := 16383

structure F80 where
  st : Nat
  deriving DecidableEq, Repr

namespace F80

def get (x : F80) : Nat := x.st &&& fpu80BitsMax

def set (value : Nat) : F80 := ⟨value &&& fpu80BitsMax⟩

def setBytes (bytes : List UInt8) : F80 :=
  .set (bytes.zipIdx.foldl (fun val b => val ||| b.1.toNat <<< (8 * b.2)) 0)

def setF64 (bits : Nat) : F80 :=
  let sign := bits >>> 63 &&& 1
  let exp := bits >>> 52 &&& 0x7FF
  let mantissa := bits &&& 0xFFFFFFFFFFFFF
  .set <|
    if exp = 0 then sign <<< 79
    else if exp = 0x7FF then
      sign <<< 79 ||| 0x7FFF <<< 64 ||| (mantissa <<< 11 ||| if mantissa ≠ 0 then 1 <<< 62 else 0)
    else
      let adjustedExp := (exp : Int) - f64ExpBias + f80ExpBias
      sign <<< 79 ||| adjustedExp.toNat <<< 64 ||| (1 <<< 52 ||| mantissa) <<< 11

def getF64 (x : F80) : Nat :=
  let value := x.get
  let sign := value >>> 79 &&& 1
  let exp := value >>> 64 &&& 0x7FFF
  let mantissa := value &&& 0xFFFFFFFFFFFFFFFF
  if exp = 0 then sign <<< 63
  else if exp = 0x7FFF then
    let f64Mantissa := mantissa >>> 11
    sign <<< 63 ||| 0x7FF <<< 52 ||| (f64Mantissa ||| if f64Mantissa ≠ 0 then 1 <<< 51 else 0)
  else
    let f64Exp := (exp : Int) - f80ExpBias + f64ExpBias
    if f64Exp ≤ 0 then sign <<< 63
    else if 0x7FF ≤ f64Exp then sign <<< 63 ||| 0x7FF <<< 52
    else sign <<< 63 ||| f64Exp.toNat <<< 52 ||| mantissa >>> 11 &&& 0xFFFFFFFFFFFFF

end F80

/-! ### The encodings -/

/-- A double as sign, exponent field and fraction. -/
structure Double where
  sign : Nat
  exponent : Nat
  fraction : Nat
  sign_lt : sign < 2
  exponent_lt : exponent < 2 ^ 11
  fraction_lt : fraction < 2 ^ 52

namespace Double

variable (d : Double)

def bits : Nat := (d.sign * 2 ^ 11 + d.exponent) * 2 ^ 52 + d.fraction

/-- Zero, normal, infinite or a quiet NaN. -/
def Covered : Prop :=
  (d.exponent = 0 → d.fraction = 0) ∧ (d.exponent = 0x7FF → d.fraction = 0 ∨ 2 ^ 51 ≤ d.fraction)

/-- The double extended encoding, with the integer bit set except in a zero. -/
def extended : Nat :=
  let exponent := if d.exponent = 0 then 0
    else if d.exponent = 0x7FF then 0x7FFF else d.exponent + (16383 - 1023)
  (d.sign * 2 ^ 15 + exponent) * 2 ^ 64 +
    if d.exponent = 0 then 0 else 2 ^ 63 + d.fraction * 2 ^ 11

def ofBits (n : BitVec 64) : Double :=
  ⟨n.toNat / 2 ^ 63, n.toNat / 2 ^ 52 % 2 ^ 11, n.toNat % 2 ^ 52, by omega, by omega, by omega⟩

theorem bits_ofBits (n : BitVec 64) : (ofBits n).bits = n.toNat := by
  simp only [bits, ofBits]
  omega

end Double

theorem or_fields {s e m j k : Nat} (he : e < 2 ^ j) (hm : m < 2 ^ k) :
    s <<< (j + k) ||| e <<< k ||| m = (s * 2 ^ j + e) * 2 ^ k + m := by
  rw [shiftLeft_add, ← shiftLeft_or_distrib, ← shiftLeft_add_eq_or_of_lt he,
    ← shiftLeft_add_eq_or_of_lt hm, shiftLeft_eq, shiftLeft_eq]

section Conversion

variable (d : Double)

theorem get_set {value : Nat} (hvalue : value < 2 ^ 80) : (F80.set value).get = value := by
  rw [F80.get, F80.set, fpu80BitsMax, and_two_pow_sub_one_eq_mod,
    and_two_pow_sub_one_eq_mod, mod_mod, mod_eq_of_lt hvalue]

theorem foldl_or_bytes (bytes : List UInt8) {val i : Nat} (hval : val < 2 ^ (8 * i)) :
    (bytes.zipIdx i).foldl (fun val b => val ||| b.1.toNat <<< (8 * b.2)) val =
      val + 2 ^ (8 * i) * leValue bytes := by
  induction bytes generalizing val i with
  | nil => rfl
  | cons b bytes ih =>
    have hb := b.toNat_lt
    have hor : val ||| b.toNat <<< (8 * i) = b.toNat * 2 ^ (8 * i) + val := by
      rw [Nat.or_comm, ← Nat.shiftLeft_add_eq_or_of_lt hval, Nat.shiftLeft_eq]
    have hpow : 2 ^ (8 * (i + 1)) = 256 * 2 ^ (8 * i) := by
      rw [Nat.mul_succ, Nat.pow_add, Nat.mul_comm]
    have hlt : b.toNat * 2 ^ (8 * i) + val < 2 ^ (8 * (i + 1)) := by
      have hle := mul_le_mul_right (2 ^ (8 * i)) (show b.toNat + 1 ≤ 256 from hb)
      rw [succ_mul] at hle
      rw [hpow]
      omega
    rw [List.zipIdx_cons, List.foldl_cons, hor, ih hlt, hpow, leValue_cons]
    ring

theorem setBytes_leBytes {value : Nat} (hvalue : value < 2 ^ 80) :
    (F80.setBytes (leBytes 10 value)).get = value := by
  rw [F80.setBytes, foldl_or_bytes _ (by decide), leValue_leBytes, mul_zero, pow_zero,
    zero_add, one_mul, mod_eq_of_lt (show value < 256 ^ 10 from hvalue), get_set hvalue]

theorem bits_fields : d.bits >>> 63 &&& 1 = d.sign ∧ d.bits >>> 52 &&& 0x7FF = d.exponent ∧
    d.bits &&& 0xFFFFFFFFFFFFF = d.fraction := by
  obtain ⟨s, e, m, hs, he, hm⟩ := d
  have hmask := fun n => and_two_pow_sub_one_eq_mod (n := n)
  simp only [Double.bits]
  refine ⟨(hmask 1 _).trans ?_, (hmask 11 _).trans ?_, (hmask 52 _).trans (by omega)⟩ <;>
    rw [shiftRight_eq_div_pow] <;> omega

theorem extended_fields {s e m : Nat} (hs : s < 2) (he : e < 2 ^ 15) (hm : m < 2 ^ 64) :
    ((s * 2 ^ 15 + e) * 2 ^ 64 + m) >>> 79 &&& 1 = s ∧
      ((s * 2 ^ 15 + e) * 2 ^ 64 + m) >>> 64 &&& 0x7FFF = e ∧
      ((s * 2 ^ 15 + e) * 2 ^ 64 + m) &&& 0xFFFFFFFFFFFFFFFF = m := by
  have hmask := fun n => and_two_pow_sub_one_eq_mod (n := n)
  refine ⟨(hmask 1 _).trans ?_, (hmask 15 _).trans ?_, (hmask 64 _).trans (by omega)⟩ <;>
    rw [shiftRight_eq_div_pow] <;> omega

theorem set_eq {value st : Nat} (heq : value = st) (hst : st < 2 ^ 80) : F80.set value = ⟨st⟩ := by
  rw [heq, F80.set, fpu80BitsMax, and_two_pow_sub_one_eq_mod, mod_eq_of_lt hst]

theorem setF64_special (hexp : d.exponent = 0x7FF) :
    ∃ m < 2 ^ 63, F80.setF64 d.bits = ⟨(d.sign * 2 ^ 15 + 0x7FFF) * 2 ^ 64 + m⟩ := by
  obtain ⟨hs, he, hm⟩ := bits_fields d
  have hsign := d.sign_lt
  have hfraction := d.fraction_lt
  have hlt : (d.fraction <<< 11 ||| if d.fraction ≠ 0 then 1 <<< 62 else 0) < 2 ^ 63 := by
    refine or_lt_two_pow ?_ (by split <;> decide)
    rw [shiftLeft_eq]
    omega
  refine ⟨_, hlt, ?_⟩
  simp only [F80.setF64, hs, he, hm, hexp]
  rw [if_neg (by decide), if_pos trivial]
  exact set_eq (or_fields (j := 15) (k := 64) (by decide) (by omega)) (by omega)

theorem setF64_eq (hexp : d.exponent ≠ 0x7FF) :
    F80.setF64 d.bits = ⟨d.extended⟩ := by
  obtain ⟨hs, he, hm⟩ := bits_fields d
  have hsign := d.sign_lt
  have hexponent := d.exponent_lt
  have hfraction := d.fraction_lt
  simp only [F80.setF64, hs, he, hm, Double.extended]
  by_cases hzero : d.exponent = 0
  · simp only [if_pos hzero]
    exact set_eq (by rw [shiftLeft_eq]; omega) (by omega)
  simp only [if_neg hzero, if_neg hexp]
  have hmantissa : (1 <<< 52 ||| d.fraction) <<< 11 = 2 ^ 63 + d.fraction * 2 ^ 11 := by
    rw [← shiftLeft_add_eq_or_of_lt hfraction, shiftLeft_eq, shiftLeft_eq]
    omega
  have hadjusted : ((d.exponent : Int) - f64ExpBias + f80ExpBias).toNat =
      d.exponent + (16383 - 1023) := by
    simp only [f64ExpBias, f80ExpBias]
    omega
  rw [hmantissa, hadjusted]
  exact set_eq (or_fields (j := 15) (k := 64) (by omega) (by omega)) (by omega)

theorem or_quiet_eq_iff {m : Nat} (hm : m < 2 ^ 52) (hquiet : m = 0 ∨ 2 ^ 51 ≤ m) :
    m ||| 1 <<< 51 = m ↔ m ≠ 0 := by
  rcases hquiet with rfl | hquiet
  · decide
  obtain ⟨r, rfl⟩ := Nat.exists_eq_add_of_le hquiet
  have hor : 2 ^ 51 + r = 1 <<< 51 ||| r :=
    shiftLeft_add_eq_or_of_lt (show r < 2 ^ 51 by omega) 1
  refine iff_of_true ?_ (by omega)
  rw [hor, Nat.or_comm, ← Nat.or_assoc, Nat.or_self]

theorem getF64_extended_iff {x : F80} (hx : x.get = d.extended) (hd : d.Covered) :
    x.getF64 = d.bits ↔ ¬(d.exponent = 0x7FF ∧ d.fraction = 0) := by
  have hsign := d.sign_lt
  have hexponent := d.exponent_lt
  have hfraction := d.fraction_lt
  simp only [F80.getF64, hx, Double.extended]
  by_cases hzero : d.exponent = 0
  · obtain ⟨hs, he, -⟩ := extended_fields hsign (show 0 < 2 ^ 15 by decide) (show 0 < 2 ^ 64 by decide)
    simp only [if_pos hzero, hs, he, if_true]
    refine iff_of_true ?_ (by omega)
    rw [shiftLeft_eq, Double.bits, hzero, hd.1 hzero]
    omega
  have hshift : (2 ^ 63 + d.fraction * 2 ^ 11) >>> 11 = 2 ^ 52 + d.fraction := by
    rw [shiftRight_eq_div_pow]
    omega
  have hmantissa : 2 ^ 63 + d.fraction * 2 ^ 11 < 2 ^ 64 := by omega
  by_cases hexp : d.exponent = 0x7FF
  · obtain ⟨hs, he, hm⟩ := extended_fields hsign (show 0x7FFF < 2 ^ 15 by decide) hmantissa
    simp only [if_neg hzero, if_pos hexp, hs, he, hm, hshift]
    rw [if_neg (by decide), if_pos trivial, if_pos (by omega)]
    -- the integer bit falls on the exponent, and the fraction gets the bit of a quiet NaN
    have hfields : d.sign <<< 63 ||| 0x7FF <<< 52 ||| (2 ^ 52 + d.fraction ||| 1 <<< 51) =
        (d.sign * 2 ^ 11 + 0x7FF) * 2 ^ 52 + (d.fraction ||| 1 <<< 51) := by
      have hone : 2 ^ 52 + d.fraction = 1 <<< 52 ||| d.fraction :=
        shiftLeft_add_eq_or_of_lt hfraction 1
      have hbit : 0x7FF <<< 52 ||| 1 <<< 52 = 0x7FF <<< 52 := by decide
      have hlt : d.fraction ||| 1 <<< 51 < 2 ^ 52 := or_lt_two_pow hfraction (by decide)
      calc d.sign <<< 63 ||| 0x7FF <<< 52 ||| (2 ^ 52 + d.fraction ||| 1 <<< 51)
        _ = d.sign <<< 63 ||| (0x7FF <<< 52 ||| 1 <<< 52) ||| (d.fraction ||| 1 <<< 51) := by
            rw [hone, Nat.or_assoc, Nat.or_assoc, Nat.or_assoc, Nat.or_assoc]
        _ = _ := by
            rw [hbit]
            exact or_fields (j := 11) (k := 52) (by decide) hlt
    rw [hfields, Double.bits, hexp, add_left_cancel_iff,
      or_quiet_eq_iff hfraction (hd.2 hexp), eq_self, true_and]
  · obtain ⟨hs, he, hm⟩ := extended_fields hsign
      (show d.exponent + (16383 - 1023) < 2 ^ 15 by omega) hmantissa
    simp only [if_neg hzero, if_neg hexp, hs, he, hm, hshift, f64ExpBias, f80ExpBias]
    rw [if_neg (by omega), if_neg (by omega), if_neg (by omega), if_neg (by omega)]
    refine iff_of_true ?_ (by omega)
    have hmask : 2 ^ 52 + d.fraction &&& 0xFFFFFFFFFFFFF = d.fraction :=
      (and_two_pow_sub_one_eq_mod _ 52).trans (by omega)
    have hback : ((d.exponent + (16383 - 1023) : Nat) : Int) - 16383 + 1023 = d.exponent := by
      push_cast
      ring
    rw [hmask, hback, Int.toNat_natCast]
    exact or_fields (j := 11) (k := 52) hexponent hfraction

end Conversion

theorem extended_lt (d : Double) : d.extended < 2 ^ 80 := by
  have hsign := d.sign_lt
  have hexponent := d.exponent_lt
  have hfraction := d.fraction_lt
  rw [Double.extended]
  split_ifs <;> omega

/-- `set_f64` stores the encoding of a double, and `get_f64` takes the double back from its ten
bytes, exactly if its exponent field is not the one of infinities and NaNs. -/
theorem f64_conversion_iff (n : BitVec 64) (hn : (Double.ofBits n).Covered) :
    (F80.setF64 n.toNat = ⟨(Double.ofBits n).extended⟩ ∧
        (F80.setBytes (leBytes 10 (Double.ofBits n).extended)).getF64 = n.toNat ↔
      (Double.ofBits n).exponent ≠ 0x7FF) ∧
      ((F80.setBytes (leBytes 10 (Double.ofBits n).extended)).getF64 = n.toNat ↔
        ¬((Double.ofBits n).exponent = 0x7FF ∧ (Double.ofBits n).fraction = 0)) := by
  rw [← Double.bits_ofBits]
  generalize Double.ofBits n = d at hn
  have hget := getF64_extended_iff d (setBytes_leBytes (extended_lt d)) hn
  refine ⟨⟨fun hstores hexp => ?_, fun hexp => ⟨setF64_eq d hexp, hget.mpr fun h => hexp h.1⟩⟩,
    hget⟩
  obtain ⟨m, hm, hset⟩ := setF64_special d hexp
  have hst := congrArg F80.st (hset.symm.trans hstores.1)
  simp only [Double.extended, hexp, if_true] at hst
  rw [if_neg (by decide), if_neg (by decide)] at hst
  omega

/-- One, as a double. -/
theorem f64_conversion_one : (Double.ofBits 0x3FF0000000000000#64).Covered ∧
      (F80.setBytes (leBytes 10 (Double.ofBits 0x3FF0000000000000#64).extended)).getF64 =
        (0x3FF0000000000000#64).toNat :=
  have hcovered : (Double.ofBits 0x3FF0000000000000#64).Covered := by
    unfold Double.Covered
    decide
  ⟨hcovered, (f64_conversion_iff _ hcovered).2.mpr (by decide)⟩

/-- Infinity is stored without its integer bit, and comes back as a NaN from its encoding. -/
theorem infinity_converted : F80.setF64 0x7FF0000000000000 = ⟨0x7FFF0000000000000000⟩ ∧
      (Double.ofBits 0x7FF0000000000000#64).extended = 0x7FFF8000000000000000 ∧
      (F80.setBytes (leBytes 10 0x7FFF8000000000000000)).getF64 = 0x7FF8000000000000 := by
  decide +kernel

end Mwemu.Fpu
