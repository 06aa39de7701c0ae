import Mwemu.Arch.Rotate

/-!
# Shifts and rotations

Every shift ends in `calc_flags`, which takes CF and OF from the fields that the shift has just set
and the other flags from the result. Against the bit vector operations, the functions are then
compared bit by bit, with one argument for all widths.
-/

namespace Mwemu.Arch

open BitVec

namespace Flags

/-! ### The flags of a result -/

theorem encodedAux_bits (cf of af : Bool) :
    (encodedAux cf of af).getLsbD 31 = cf ∧ (encodedAux cf of af).getLsbD 30 = (cf ^^ of) ∧
      (encodedAux cf of af).getLsbD 3 = af ∧ (encodedAux cf of af).getLsbD 0 = false ∧
      ∀ j, 8 ≤ j → j < 16 → (encodedAux cf of af).getLsbD j = false := by
  have hdelta : ∀ j, j < 16 → 8 ≤ j → ∀ cf of af, (encodedAux cf of af).getLsbD j = false := by
    decide
  refine ⟨?_, ?_, ?_, ?_, fun j hlow hhigh => hdelta j hhigh hlow cf of af⟩ <;>
    cases cf <;> cases of <;> cases af <;> rfl

theorem calcFlags_eq (f : Flags) (value : BitVec 64) (w : Width) :
    f.calcFlags value w = { f with fTf := false }.storeOszapc (signExtendResult value w)
      (encodedAux f.fCf f.fOf f.fAf) :=
  rfl

section CalcFlags

variable (f : Flags) (value : BitVec 64) (w : Width)

theorem calcFlags_cf : (f.calcFlags value w).cf = f.fCf := by
  rw [calcFlags_eq, storeOszapc_cf]
  exact (encodedAux_bits f.fCf f.fOf f.fAf).1

theorem calcFlags_of : (f.calcFlags value w).of = f.fOf := by
  obtain ⟨hcf, hpo, -⟩ := encodedAux_bits f.fCf f.fOf f.fAf
  rw [calcFlags_eq, storeOszapc_of, hcf, hpo]
  simp

theorem calcFlags_af : (f.calcFlags value w).af = f.fAf := by
  rw [calcFlags_eq, storeOszapc_af]
  exact (encodedAux_bits f.fCf f.fOf f.fAf).2.2.1

theorem calcFlags_zf : (f.calcFlags value w).zf = (signExtendResult value w == 0) :=
  rfl

theorem calcFlags_sf : (f.calcFlags value w).sf = (signExtendResult value w).getLsbD 63 := by
  rw [calcFlags_eq, storeOszapc_sf (encodedAux_bits f.fCf f.fOf f.fAf).2.2.2.1]

theorem calcFlags_pf : (f.calcFlags value w).pf = evenParity (signExtendResult value w).toNat := by
  rw [calcFlags_eq, storeOszapc_pf (encodedAux_bits f.fCf f.fOf f.fAf).2.2.2.2]

end CalcFlags

variable {w : Width}

theorem setWidth_setWidth_operand (r : BitVec w.bits) : (r.setWidth 64).setWidth w.bits = r := by
  apply eq_of_getLsbD_eq
  intro i hi
  rw [getLsbD_setWidth, getLsbD_setWidth_operand, decide_eq_true hi, Bool.true_and]

theorem signExtendResult_operand (r : BitVec w.bits) :
    signExtendResult (r.setWidth 64) w = r.signExtend 64 := by
  have hself := setWidth_setWidth_operand r
  cases w with
  | qword => exact (signExtend_eq r).symm
  | dword => exact congrArg (BitVec.signExtend 64) hself
  | word => exact congrArg (BitVec.signExtend 64) hself
  | byte => exact congrArg (BitVec.signExtend 64) hself

/-- What an instruction with a masked count `k` leaves of an operand `x`, with the flags `f` before:
the value `r`, CF as the last bit that leaves, and OF for a count of one. -/
structure Shifted (w : Width) (k : Nat) (x r : BitVec w.bits) (cf of : Bool) (f : Flags)
    (out : BitVec 64 × Flags) : Prop where
  idle : k = 0 → out = (x.setWidth 64, f)
  value : out.1 = r.setWidth 64
  carry : k ≠ 0 → out.2.cf = cf
  overflow : k = 1 → out.2.of = of

/-- The shifts also set the flags of the result. -/
structure ResultFlags (w : Width) (k : Nat) (r : BitVec w.bits) (out : BitVec 64 × Flags) :
    Prop where
  zf : k ≠ 0 → out.2.zf = decide (r = 0)
  sf : k ≠ 0 → out.2.sf = r.msb
  pf : k ≠ 0 → out.2.pf = evenParity r.toNat

def Shifts (w : Width) (k : Nat) (x r : BitVec w.bits) (cf of : Bool) (f : Flags)
    (out : BitVec 64 × Flags) : Prop :=
  Shifted w k x r cf of f out ∧ ResultFlags w k r out

theorem signExtend_flags {n : Nat} (r : BitVec n) (hn : 8 ≤ n) (hn' : n ≤ 64) :
    (r.signExtend 64 == 0) = decide (r = 0) ∧ (r.signExtend 64).getLsbD 63 = r.msb ∧
      evenParity (r.signExtend 64).toNat = evenParity r.toNat := by
  obtain ⟨k, rfl⟩ : ∃ k, n = k + 1 := ⟨n - 1, by omega⟩
  refine ⟨?_, ?_, evenParity_signExtend r hn hn'⟩
  · rw [Bool.eq_iff_iff, beq_iff_eq, decide_eq_true_iff, signExtend_eq_zero_iff r hn']
    exact ⟨fun h => eq_of_toNat_eq h, fun h => h ▸ rfl⟩
  · rw [getLsbD_signExtend_top r hn', testBit_toNat, msb_eq_getLsbD_last]
    rfl

theorem Width.le_bits (w : Width) : 8 ≤ w.bits := by
  cases w <;> decide

theorem calcFlags_resultFlags (f : Flags) (k : Nat) (r : BitVec w.bits) (value : BitVec 64) :
    ResultFlags w k r (value, f.calcFlags (r.setWidth 64) w) := by
  obtain ⟨hzf, hsf, hpf⟩ := signExtend_flags r (Width.le_bits w) w.bits_le
  constructor
  · intro _
    rw [calcFlags_zf, signExtendResult_operand, hzf]
  · intro _
    rw [calcFlags_sf, signExtendResult_operand, hsf]
  · intro _
    rw [calcFlags_pf, signExtendResult_operand, hpf]

section Outcome

variable {w : Width} {k : Nat} {x r : BitVec w.bits} {cf of : Bool} {f g : Flags}

theorem shifted_idle (hr : r = x) : Shifts w 0 x r cf of f (x.setWidth 64, f) :=
  ⟨⟨fun _ => rfl, hr ▸ rfl, fun h => absurd rfl h, nofun⟩,
    ⟨fun h => absurd rfl h, fun h => absurd rfl h, fun h => absurd rfl h⟩⟩

theorem shifted_of_calcFlags (hk : k ≠ 0) (hcf : g.fCf = cf) (hof : k = 1 → g.fOf = of) :
    Shifts w k x r cf of f (r.setWidth 64, g.calcFlags (r.setWidth 64) w) := by
  refine ⟨⟨fun h => absurd h hk, rfl, fun _ => ?_, fun hone => ?_⟩, calcFlags_resultFlags g k r _⟩
  · rw [calcFlags_cf, hcf]
  · rw [calcFlags_of, hof hone]

end Outcome

/-! ### Bits -/

theorem and_one_eq (value : BitVec 64) :
    value &&& 1 = (BitVec.ofBool (value.getLsbD 0)).setWidth 64 :=
  and_one_eq_setWidth_ofBool_getLsbD

theorem lowBit_eq (value : BitVec 64) : lowBit value = value.getLsbD 0 := by
  rw [lowBit, and_one_eq]
  cases value.getLsbD 0 <;> rfl

theorem and_one_bne_and_one (a b : BitVec 64) :
    (a &&& 1 != b &&& 1) = (a.getLsbD 0 ^^ b.getLsbD 0) := by
  rw [and_one_eq, and_one_eq]
  cases a.getLsbD 0 <;> cases b.getLsbD 0 <;> rfl

theorem and_one_bne_carryIn (a : BitVec 64) (c : Bool) :
    (a &&& 1 != carryIn 64 c) = (a.getLsbD 0 ^^ c) := by
  rw [and_one_eq]
  cases a.getLsbD 0 <;> cases c <;> rfl

theorem and_one_xor_and_one (a b : BitVec 64) :
    ((a &&& 1) ^^^ (b &&& 1) == 1) = (a.getLsbD 0 ^^ b.getLsbD 0) := by
  rw [and_one_eq, and_one_eq]
  cases a.getLsbD 0 <;> cases b.getLsbD 0 <;> rfl

section Operand

variable {w : Width} (x : BitVec w.bits)

theorem getLsbD_shifted_operand (i : Nat) : ((x.setWidth 64) >>> i).getLsbD 0 = x.getLsbD i := by
  rw [getLsbD_ushiftRight, Nat.add_zero, getLsbD_setWidth_operand]

theorem and_ones_eq_operand {value : BitVec 64} {r : BitVec w.bits}
    (hbits : ∀ i, i < w.bits → value.getLsbD i = r.getLsbD i) :
    value &&& w.ones = r.setWidth 64 := by
  rw [and_ones_eq hbits, setWidth_eq]

theorem getLsbD_last_operand : ((x.setWidth 64) >>> (w.bits - 1)).getLsbD 0 = x.msb := by
  rw [getLsbD_shifted_operand, msb_eq_getLsbD_last]

theorem msb_shiftLeft (k : Nat) :
    (x <<< k).msb = if k < w.bits then x.getLsbD (w.bits - 1 - k) else false := by
  have hpos := w.bits_pos
  rw [msb_eq_getLsbD_last, getLsbD_shiftLeft]
  by_cases hk : k < w.bits
  · simp [hk, show ¬ w.bits - 1 < k by omega, show w.bits - 1 < w.bits by omega]
  · simp [hk, show w.bits - 1 < k by omega]

end Operand

/-! ### The shifts -/

section Shifts

variable (w : Width) (f : Flags) (x y : BitVec w.bits) (value1 : BitVec 64)

theorem shl2p_shifted :
    Shifts w (w.count value1) x (x <<< w.count value1) (x <<< (w.count value1 - 1)).msb
      ((x <<< 1).msb ^^ x.msb) f (shl2p w f (x.setWidth 64) value1) := by
  unfold shl2p
  generalize w.count value1 = k
  by_cases hzero : k = 0
  · subst hzero
    simp only [if_pos, and_ones_operand]
    exact shifted_idle (shiftLeft_zero x)
  simp only [if_neg hzero]
  have hvalue : (x.setWidth 64 <<< k) &&& w.ones = (x <<< k).setWidth 64 := by
    refine and_ones_eq_operand fun i hi => ?_
    have hle := w.bits_le
    rw [getLsbD_shiftLeft, getLsbD_shiftLeft, getLsbD_setWidth_operand]
    simp [hi, show i < 64 by omega]
  rw [hvalue]
  refine shifted_of_calcFlags hzero ?_ fun hone => ?_
  · simp only [lowBit_eq, getLsbD_shifted_operand, msb_shiftLeft]
    by_cases hk : k ≤ w.bits
    · rw [if_pos hk, if_pos (by omega), show w.bits - 1 - (k - 1) = w.bits - k by omega]
    · rw [if_neg hk, if_neg (by omega)]
  · subst hone
    simp only [if_pos, and_one_bne_and_one, getLsbD_last_operand]

theorem shr2p_shifted :
    Shifts w (w.count value1) x (x >>> w.count value1) ((x >>> (w.count value1 - 1)).getLsbD 0)
      x.msb f (shr2p w f (x.setWidth 64) value1) := by
  unfold shr2p
  generalize w.count value1 = k
  by_cases hzero : k = 0
  · subst hzero
    simp only [if_pos, and_ones_operand]
    exact shifted_idle (ushiftRight_zero x)
  simp only [if_neg hzero]
  have hvalue : (x.setWidth 64 >>> k) &&& w.ones = (x >>> k).setWidth 64 := by
    refine and_ones_eq_operand fun i hi => ?_
    rw [getLsbD_ushiftRight, getLsbD_ushiftRight, getLsbD_setWidth_operand]
  rw [hvalue]
  refine shifted_of_calcFlags hzero ?_ fun hone => ?_
  · simp only [lowBit_eq, getLsbD_shifted_operand]
    rw [getLsbD_ushiftRight, Nat.add_zero]
    by_cases hk : k ≤ w.bits
    · rw [if_pos hk]
    · rw [if_neg hk, getLsbD_of_ge x (k - 1) (by omega)]
  · subst hone
    simp only [if_pos, lowBit_eq, getLsbD_last_operand]

theorem sarResult_eq (k : Nat) : sarResult w (x.setWidth 64) k = (x.sshiftRight k).setWidth 64 := by
  simp only [sarResult, setWidth_setWidth_operand]
  congr 1
  by_cases hk : k < w.bits
  · rw [if_pos hk]
  -- every bit is the sign
  rw [if_neg hk]
  apply eq_of_getLsbD_eq
  intro i hi
  rw [getLsbD_sshiftRight, if_neg (show ¬ k + i < w.bits by omega),
    decide_eq_false (show ¬ w.bits ≤ i by omega)]
  cases x.msb
  · simp
  · simp [neg_one_eq_allOnes, hi]

theorem getLsbD_zero_sshiftRight (k : Nat) :
    (x.sshiftRight k).getLsbD 0 = if k < w.bits then x.getLsbD k else x.msb := by
  have hpos := w.bits_pos
  rw [getLsbD_sshiftRight]
  simp [show ¬ w.bits ≤ 0 by omega]

theorem sarWide_shifted (hcount : w.count value1 < w.bits) :
    Shifts w (w.count value1) x (x.sshiftRight (w.count value1))
      ((x.sshiftRight (w.count value1 - 1)).getLsbD 0) false f
      (sarWide w f (x.setWidth 64) value1) := by
  unfold sarWide
  generalize w.count value1 = k at hcount
  by_cases hzero : k = 0
  · subst hzero
    simp only [if_pos]
    exact shifted_idle (sshiftRight_zero)
  · simp only [if_neg hzero, sarResult_eq]
    refine shifted_of_calcFlags hzero ?_ fun _ => rfl
    simp only [lowBit_eq, getLsbD_shifted_operand, getLsbD_zero_sshiftRight]
    rw [if_pos (by omega), if_pos (by omega)]

theorem sarNarrow_shifted : Shifts w (w.count value1) x (x.sshiftRight (w.count value1))
      ((x.sshiftRight (w.count value1 - 1)).getLsbD 0) false f
      (sarNarrow w f (x.setWidth 64) value1) := by
  unfold sarNarrow
  generalize w.count value1 = k
  by_cases hzero : k = 0
  · subst hzero
    simp only [if_pos]
    exact shifted_idle (sshiftRight_zero)
  simp only [if_neg hzero, sarResult_eq]
  refine shifted_of_calcFlags hzero ?_ fun _ => rfl
  simp only [lowBit_eq, getLsbD_last_operand]
  rw [getLsbD_shifted_operand, getLsbD_zero_sshiftRight]
  by_cases hk : k < w.bits
  · rw [if_pos hk, if_pos (by omega)]
  · rw [if_neg hk]
    by_cases heq : k = w.bits
    · rw [if_pos (by omega), heq, msb_eq_getLsbD_last]
    · rw [if_neg (by omega)]

theorem sar2p_shifted : Shifts w (w.count value1) x (x.sshiftRight (w.count value1))
      ((x.sshiftRight (w.count value1 - 1)).getLsbD 0) false f
      (sar2p w f (x.setWidth 64) value1) := by
  cases w with
  | byte => exact sarNarrow_shifted .byte f x value1
  | word => exact sarNarrow_shifted .word f x value1
  | dword => exact sarWide_shifted .dword f x value1 (Width.dword.count_lt value1)
  | qword => exact sarWide_shifted .qword f x value1 (Width.qword.count_lt value1)

/-! ### The double shifts -/

theorem doubleCount_eq (hcount : w.count value1 ≤ w.bits) : doubleCount w value1 = w.count value1 :=
  Nat.min_eq_left hcount

theorem shld_shifted (hcount : w.count value1 ≤ w.bits) :
    Shifts w (w.count value1) x (((x ++ y) <<< w.count value1).extractLsb' w.bits w.bits)
      (x <<< (w.count value1 - 1)).msb
      ((((x ++ y) <<< w.count value1).extractLsb' w.bits w.bits).msb ^^ x.msb) f
      (shld f (x.setWidth 64) (y.setWidth 64) value1 w) := by
  unfold shld
  rw [doubleCount_eq w value1 hcount]
  generalize w.count value1 = k at hcount
  by_cases hzero : k = 0
  · subst hzero
    simp only [if_pos, and_ones_operand]
    refine shifted_idle (eq_of_getLsbD_eq fun i hi => ?_)
    rw [shiftLeft_zero, getLsbD_extractLsb', getLsbD_append,
      if_neg (by omega), Nat.add_sub_cancel_left, decide_eq_true hi, Bool.true_and]
  simp only [if_neg hzero]
  have hvalue : ((y.setWidth 64 >>> (w.bits - k)) ||| (x.setWidth 64 <<< k)) &&& w.ones =
      (((x ++ y) <<< k).extractLsb' w.bits w.bits).setWidth 64 := by
    refine and_ones_eq_operand fun i hi => ?_
    have hle := w.bits_le
    rw [getLsbD_or, getLsbD_ushiftRight, getLsbD_shiftLeft,
      getLsbD_extractLsb', getLsbD_shiftLeft, getLsbD_append,
      getLsbD_setWidth_operand, getLsbD_setWidth_operand]
    by_cases hlow : i < k
    · rw [if_pos (by omega)]
      simp [hlow, hi, show ¬ w.bits + i < k by omega, show w.bits - k + i = w.bits + i - k by omega]
    · rw [if_neg (by omega), getLsbD_of_ge y _ (by omega)]
      simp [hlow, hi, show ¬ w.bits + i < k by omega, show i < 64 by omega,
        show w.bits + i - k - w.bits = i - k by omega]
  rw [hvalue]
  refine shifted_of_calcFlags hzero ?_ fun hone => ?_
  · simp only [lowBit_eq, getLsbD_shifted_operand, msb_shiftLeft]
    rw [if_pos (by omega), show w.bits - 1 - (k - 1) = w.bits - k by omega]
  · subst hone
    simp only [if_pos, and_one_bne_carryIn, lowBit_eq, getLsbD_last_operand]

theorem shrd_shifted (hcount : w.count value1 ≤ w.bits) :
    Shifts w (w.count value1) x (((y ++ x) >>> w.count value1).setWidth w.bits)
      ((x >>> (w.count value1 - 1)).getLsbD 0)
      ((((y ++ x) >>> w.count value1).setWidth w.bits).msb ^^ x.msb) f
      (shrd f (x.setWidth 64) (y.setWidth 64) value1 w) := by
  unfold shrd
  rw [doubleCount_eq w value1 hcount]
  generalize w.count value1 = k at hcount
  by_cases hzero : k = 0
  · subst hzero
    simp only [if_pos, and_ones_operand]
    refine shifted_idle (eq_of_getLsbD_eq fun i hi => ?_)
    rw [ushiftRight_zero, getLsbD_setWidth, getLsbD_append, if_pos hi,
      decide_eq_true hi, Bool.true_and]
  simp only [if_neg hzero]
  have hvalue : ((x.setWidth 64 >>> k) ||| (y.setWidth 64 <<< (w.bits - k))) &&& w.ones =
      (((y ++ x) >>> k).setWidth w.bits).setWidth 64 := by
    refine and_ones_eq_operand fun i hi => ?_
    have hle := w.bits_le
    rw [getLsbD_or, getLsbD_ushiftRight, getLsbD_shiftLeft,
      getLsbD_setWidth_operand, getLsbD_setWidth_operand, getLsbD_setWidth,
      getLsbD_ushiftRight, getLsbD_append]
    by_cases hlow : k + i < w.bits
    · rw [if_pos hlow]
      simp [hi, show i < w.bits - k by omega]
    · rw [if_neg hlow, getLsbD_of_ge x _ (by omega)]
      simp [hi, show ¬ i < w.bits - k by omega, show i < 64 by omega,
        show k + i - w.bits = i - (w.bits - k) by omega]
  rw [hvalue]
  refine shifted_of_calcFlags hzero ?_ fun hone => ?_
  · simp only [lowBit_eq, getLsbD_shifted_operand]
    rw [getLsbD_ushiftRight, Nat.add_zero]
  · subst hone
    simp only [if_pos, and_one_bne_and_one, getLsbD_last_operand]
    exact Bool.xor_comm _ _

/-! ### The rotates -/

theorem getLsbD_rotateLeft_mod (k : Nat) {i : Nat} (hi : i < w.bits) :
    (x.rotateLeft k).getLsbD i = x.getLsbD ((i + w.bits - k % w.bits) % w.bits) := by
  have hmod : k % w.bits < w.bits := Nat.mod_lt _ w.bits_pos
  rw [getLsbD_rotateLeft]
  generalize k % w.bits = r at hmod
  by_cases hlow : i < r
  · rw [decide_eq_true hlow, cond_true, Nat.mod_eq_of_lt (by omega)]
    congr 1
    omega
  · rw [decide_eq_false hlow, cond_false, decide_eq_true hi, Bool.true_and,
      show i + w.bits - r = i - r + w.bits by omega, Nat.add_mod_right,
      Nat.mod_eq_of_lt (by omega)]

theorem getLsbD_rotateRight_mod (k : Nat) {i : Nat} (hi : i < w.bits) :
    (x.rotateRight k).getLsbD i = x.getLsbD ((i + k) % w.bits) := by
  have hmod : k % w.bits < w.bits := Nat.mod_lt _ w.bits_pos
  rw [getLsbD_rotateRight, Nat.add_mod, Nat.mod_eq_of_lt hi]
  generalize k % w.bits = r at hmod
  by_cases hlow : i < w.bits - r
  · rw [decide_eq_true hlow, cond_true, Nat.mod_eq_of_lt (by omega), Nat.add_comm]
  · rw [decide_eq_false hlow, cond_false, decide_eq_true hi, Bool.true_and,
      show i + r = i - (w.bits - r) + w.bits by omega, Nat.add_mod_right,
      Nat.mod_eq_of_lt (by omega)]

theorem rotateLeft_carry {k : Nat} (hk : k ≠ 0) :
    (x.rotateLeft k).getLsbD 0 = (x.rotateLeft (k - 1)).msb := by
  have hpos := w.bits_pos
  rw [msb_eq_getLsbD_last, getLsbD_rotateLeft_mod w x k hpos,
    getLsbD_rotateLeft_mod w x (k - 1) (by omega)]
  congr 1
  rcases w.bits_cases with h | h | h | h <;> rw [h] <;> omega

theorem rotateRight_carry {k : Nat} (hk : k ≠ 0) :
    (x.rotateRight k).msb = (x.rotateRight (k - 1)).getLsbD 0 := by
  have hpos := w.bits_pos
  rw [msb_eq_getLsbD_last, getLsbD_rotateRight_mod w x k (by omega),
    getLsbD_rotateRight_mod w x (k - 1) hpos,
    show w.bits - 1 + k = 0 + (k - 1) + w.bits by omega, Nat.add_mod_right]

theorem rol_value (k : Nat) : (if k % w.bits = 0 then x.setWidth 64
      else ((x.setWidth 64 <<< (k % w.bits)) ||| (x.setWidth 64 >>> (w.bits - k % w.bits))) &&&
        w.ones) = (x.rotateLeft k).setWidth 64 := by
  have hmod : k % w.bits < w.bits := Nat.mod_lt _ w.bits_pos
  by_cases hrot : k % w.bits = 0
  · rw [if_pos hrot]
    congr 1
    refine eq_of_getLsbD_eq fun i hi => ?_
    rw [getLsbD_rotateLeft_mod w x k hi, hrot, Nat.sub_zero, Nat.add_mod_right, Nat.mod_eq_of_lt hi]
  rw [if_neg hrot]
  refine and_ones_eq_operand fun i hi => ?_
  have hle := w.bits_le
  rw [getLsbD_rotateLeft, getLsbD_or, getLsbD_shiftLeft,
    getLsbD_ushiftRight, getLsbD_setWidth_operand, getLsbD_setWidth_operand]
  by_cases hlow : i < k % w.bits
  · simp [hlow]
  · rw [getLsbD_of_ge x (w.bits - k % w.bits + i) (by omega)]
    simp [hlow, hi, show i < 64 by omega]

theorem rol_shifted : Shifted w (w.count value1) x (x.rotateLeft (w.count value1))
      (x.rotateLeft (w.count value1 - 1)).msb
      ((x.rotateLeft 1).msb ^^ (x.rotateLeft 1).getLsbD 0) f (rol f (x.setWidth 64) value1 w) := by
  simp only [rol, and_ones_operand, rol_value]
  generalize w.count value1 = k
  by_cases hzero : k = 0
  · subst hzero
    rw [if_pos rfl, rotateLeft_zero]
    exact (shifted_idle rfl).1
  rw [if_neg hzero]
  refine ⟨fun h => absurd h hzero, rfl, fun _ => ?_, fun hone => ?_⟩
  · simp only [lowBit_eq, getLsbD_setWidth_operand]
    exact rotateLeft_carry w x hzero
  · subst hone
    simp only [Flags.of, if_pos, and_one_xor_and_one, getLsbD_last_operand,
      getLsbD_setWidth_operand]

theorem ror_value (k : Nat) :
    ((x.setWidth 64 >>> (k % w.bits)) ||| (x.setWidth 64 <<< (w.bits - k % w.bits))) &&& w.ones =
      (x.rotateRight k).setWidth 64 := by
  refine and_ones_eq_operand fun i hi => ?_
  have hmod : k % w.bits < w.bits := Nat.mod_lt _ w.bits_pos
  have hle := w.bits_le
  rw [getLsbD_rotateRight, getLsbD_or, getLsbD_shiftLeft,
    getLsbD_ushiftRight, getLsbD_setWidth_operand, getLsbD_setWidth_operand]
  by_cases hlow : i < w.bits - k % w.bits
  · simp [hlow]
  · rw [getLsbD_of_ge x (k % w.bits + i) (by omega)]
    simp [hlow, hi, show i < 64 by omega]

theorem ror_shifted : Shifted w (w.count value1) x (x.rotateRight (w.count value1))
      ((x.rotateRight (w.count value1 - 1)).getLsbD 0)
      ((x.rotateRight 1).msb ^^ (x.rotateRight 1).getLsbD (w.bits - 2)) f
      (ror f (x.setWidth 64) value1 w) := by
  unfold ror
  generalize w.count value1 = k
  by_cases hzero : k = 0
  · subst hzero
    simp only [if_pos, and_ones_operand]
    exact (shifted_idle (rotateRight_zero x)).1
  simp only [if_neg hzero, ror_value]
  refine ⟨fun h => absurd h hzero, rfl, fun _ => ?_, fun hone => ?_⟩
  · simp only [lowBit_eq, getLsbD_last_operand]
    exact rotateRight_carry w x hzero
  · have hshift : 1 % w.bits = 1 := Nat.mod_eq_of_lt (by have := Width.le_bits w; omega)
    subst hone
    simp only [Flags.of, hshift, if_pos, and_one_xor_and_one, getLsbD_shifted_operand,
      msb_eq_getLsbD_last]

/-! ### Counts past the width -/

theorem shl2p_past (hcount : w.bits < w.count value1) :
    (shl2p w f (x.setWidth 64) value1).2.cf = false := by
  rw [(shl2p_shifted w f x value1).1.carry (by omega), msb_shiftLeft, if_neg (by omega)]

theorem shr2p_past (hcount : w.bits < w.count value1) :
    (shr2p w f (x.setWidth 64) value1).2.cf = false := by
  rw [(shr2p_shifted w f x value1).1.carry (by omega), getLsbD_ushiftRight,
    getLsbD_of_ge x _ (by omega)]

theorem sar2p_past (hcount : w.bits < w.count value1) :
    (sar2p w f (x.setWidth 64) value1).2.cf = x.msb := by
  rw [(sar2p_shifted w f x value1).1.carry (by omega), getLsbD_zero_sshiftRight, if_neg (by omega)]

end Shifts

/-- Every shift, rotation and double shift of an operand by a count of any size: the value, CF as
the last bit that leaves, OF for a count of one, the flags of the result, and no change for a
masked count of zero. -/
theorem shifts_and_rotations (w : Width) (f : Flags) (x y : BitVec w.bits) (value1 : BitVec 64) :
    let k := value1.toNat % if w = .qword then 64 else 32
    let shl := shl2p w f (x.setWidth 64) value1
    let shr := shr2p w f (x.setWidth 64) value1
    let sar := sar2p w f (x.setWidth 64) value1
    (Shifted w k x (x <<< k) (x <<< (k - 1)).msb ((x <<< 1).msb ^^ x.msb) f shl ∧
      ResultFlags w k (x <<< k) shl ∧ (w.bits < k → shl.2.cf = false)) ∧
    (Shifted w k x (x >>> k) ((x >>> (k - 1)).getLsbD 0) x.msb f shr ∧
      ResultFlags w k (x >>> k) shr ∧ (w.bits < k → shr.2.cf = false)) ∧
    (Shifted w k x (x.sshiftRight k) ((x.sshiftRight (k - 1)).getLsbD 0) false f sar ∧
      ResultFlags w k (x.sshiftRight k) sar ∧ (w.bits < k → sar.2.cf = x.msb)) ∧
    Shifted w k x (x.rotateLeft k) (x.rotateLeft (k - 1)).msb
      ((x.rotateLeft 1).msb ^^ (x.rotateLeft 1).getLsbD 0) f (rol f (x.setWidth 64) value1 w) ∧
    Shifted w k x (x.rotateRight k) ((x.rotateRight (k - 1)).getLsbD 0)
      ((x.rotateRight 1).msb ^^ (x.rotateRight 1).getLsbD (w.bits - 2)) f
      (ror f (x.setWidth 64) value1 w) ∧
    (k ≤ w.bits → let left := ((x ++ y) <<< k).extractLsb' w.bits w.bits
      let right := ((y ++ x) >>> k).setWidth w.bits
      (Shifted w k x left (x <<< (k - 1)).msb (left.msb ^^ x.msb) f
          (shld f (x.setWidth 64) (y.setWidth 64) value1 w) ∧
        ResultFlags w k left (shld f (x.setWidth 64) (y.setWidth 64) value1 w)) ∧
      (Shifted w k x right ((x >>> (k - 1)).getLsbD 0) (right.msb ^^ x.msb) f
          (shrd f (x.setWidth 64) (y.setWidth 64) value1 w) ∧
        ResultFlags w k right (shrd f (x.setWidth 64) (y.setWidth 64) value1 w))) := by
  rw [← w.count_eq]
  have hshl := shl2p_shifted w f x value1
  have hshr := shr2p_shifted w f x value1
  have hsar := sar2p_shifted w f x value1
  refine ⟨⟨hshl.1, hshl.2, shl2p_past w f x value1⟩, ⟨hshr.1, hshr.2, shr2p_past w f x value1⟩,
    ⟨hsar.1, hsar.2, sar2p_past w f x value1⟩, rol_shifted w f x value1,
    ror_shifted w f x value1, fun hcount => ?_⟩
  exact ⟨shld_shifted w f x y value1 hcount, shrd_shifted w f x y value1 hcount⟩

/-- A count of 33 is masked to 1 for a byte. -/
theorem shifts_and_rotations_masked :
    (shl2p .byte new 0x81 33).1 = 2 ∧ (shl2p .byte new 0x81 33).2.cf = true ∧
      (shld new 0x81 0x80 33 .byte).1 = 3 := by
  have hall := shifts_and_rotations .byte new 0x81#8 0x80#8 33
  exact ⟨hall.1.1.value, hall.1.1.carry (by decide),
    (hall.2.2.2.2.2 (by decide)).1.1.value⟩

end Flags

end Mwemu.Arch
