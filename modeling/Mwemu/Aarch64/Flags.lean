import Mwemu.Aarch64.Operand

/-!
# AArch64 condition flags

The handlers that set `N`, `Z`, `C` and `V` compute carry and overflow in three places: from the
result of a 64-bit or 32-bit addition, from that of a subtraction, and from a 128-bit sum with the
carry added in. All of them agree with the architecture's one `AddWithCarry`, and the conditions on
the flags of a comparison with the order of its operands.
-/

namespace Mwemu.Aarch64

open BitVec Nat

namespace FlagsNZCV

def updateAdd {w : Nat} (a b result : BitVec w) : FlagsNZCV where
  n := result.slt 0
  z := result = 0
  c := result.ult a
  v := ((a ^^^ result) &&& (b ^^^ result)).slt 0

def updateSub {w : Nat} (a b result : BitVec w) : FlagsNZCV where
  n := result.slt 0
  z := result = 0
  c := b.ule a
  v := ((a ^^^ b) &&& (a ^^^ result)).slt 0

def evalCondition (f : FlagsNZCV) (cond : BitVec 8) : Bool :=
  match (cond &&& 0xf).toNat with
  | 0 => f.z
  | 1 => !f.z
  | 2 => f.c
  | 3 => !f.c
  | 4 => f.n
  | 5 => !f.n
  | 6 => f.v
  | 7 => !f.v
  | 8 => f.c && !f.z
  | 9 => !f.c || f.z
  | 10 => f.n == f.v
  | 11 => f.n != f.v
  | 12 => !f.z && f.n == f.v
  | 13 => f.z || f.n != f.v
  | _ => true

end FlagsNZCV

/-! ### The handlers -/

def add (s : RegFile) (ins : Instruction) (setFlags : Bool) : RegFile × Bool :=
  let is64 := operandIs64 (ins.operands 0)
  let a := s.readOperandValue (ins.operands 1)
  let b := s.readOperandValue (ins.operands 2)
  let result := a + b
  let s :=
    if setFlags then
      if is64 then { s with nzcv := .updateAdd a b result }
      else { s with nzcv := .updateAdd (a.setWidth 32) (b.setWidth 32) (result.setWidth 32) }
    else s
  let result := if is64 then result else result &&& 0xffffffff
  (s.writeReg (ins.operands 0) result, true)

def readSimdReg (s : RegFile) : Operand → BitVec 128
  | .simdRegisterElements _ r _ | .simdRegister _ r => s.v r
  | _ => 0

def simdSub (a b : BitVec 128) (elemBits : Nat) : BitVec 128 :=
  let mask := if 128 ≤ elemBits then BitVec.allOnes 128 else 1 <<< elemBits - 1
  (List.range (128 / elemBits)).foldl (fun result i =>
    let shift := i * elemBits
    let va := (a >>> shift) &&& mask
    let vb := (b >>> shift) &&& mask
    let vr := (va - vb) &&& mask
    result ||| vr <<< shift) 0

def SimdSizeCode.elemBits : SimdSizeCode → Nat
  | .b => 8
  | .h => 16
  | .s => 32
  | .d | .q => 64

def subSimd (s : RegFile) (ins : Instruction) : RegFile × Bool :=
  match ins.operands 0 with
  | .simdRegisterElements _ rd elemSz | .simdRegister elemSz rd =>
    let a := readSimdReg s (ins.operands 1)
    let b := readSimdReg s (ins.operands 2)
    ({ s with v := Function.update s.v rd (simdSub a b elemSz.elemBits) }, true)
  | _ => (s, true)

/-- The handler of the scalar forms; with flags, the zero register is not written. -/
def subScalar (s : RegFile) (ins : Instruction) (setFlags : Bool) : RegFile × Bool :=
  let is64 := operandIs64 (ins.operands 0)
  let a := s.readOperandValue (ins.operands 1)
  let b := s.readOperandValue (ins.operands 2)
  let result := a - b
  let s :=
    if setFlags then
      if is64 then { s with nzcv := .updateSub a b result }
      else { s with nzcv := .updateSub (a.setWidth 32) (b.setWidth 32) (result.setWidth 32) }
    else s
  let discards := match ins.operands 0 with
    | .register _ n => setFlags && n = 31
    | _ => false
  if discards then (s, true)
  else
    let result := if is64 then result else result &&& 0xffffffff
    (s.writeReg (ins.operands 0) result, true)

def sub (s : RegFile) (ins : Instruction) (setFlags : Bool) : RegFile × Bool :=
  match ins.operands 0 with
  | .simdRegisterElements .. | .simdRegister .. => subSimd s ins
  | _ => subScalar s ins setFlags

/-- The result and the flags of an addition with carry, from a sum in `u128`. -/
def adcResult (is64 : Bool) (a b : BitVec 64) (carryIn : Bool) : BitVec 64 × FlagsNZCV :=
  let bits := if is64 then 64 else 32
  let mask : BitVec 64 := if is64 then BitVec.allOnes 64 else 0xffffffff
  let a := a &&& mask
  let b := b &&& mask
  let wide := a.setWidth 128 + b.setWidth 128 + (BitVec.ofBool carryIn).setWidth 128
  let result := wide.setWidth 64 &&& mask
  let sign : BitVec 64 := 1#64 <<< (bits - 1)
  (result, {
    n := result &&& sign ≠ 0
    z := result = 0
    c := wide >>> bits ≠ 0
    v := a &&& sign = b &&& sign ∧ result &&& sign ≠ a &&& sign })

def adc (s : RegFile) (ins : Instruction) (subtract setFlags : Bool) : RegFile × Bool :=
  let is64 := operandIs64 (ins.operands 0)
  let a := s.readReg (ins.operands 1)
  let b := s.readReg (ins.operands 2)
  let b := if subtract then ~~~b else b
  let (result, nzcv) := adcResult is64 a b s.nzcv.c
  let s := if setFlags then { s with nzcv } else s
  (s.writeReg (ins.operands 0) result, true)

def ccmp (s : RegFile) (ins : Instruction) (isSub : Bool) : RegFile × Bool :=
  match ins.operands 3, ins.operands 2 with
  | .conditionCode cond, .immediate nzcvImm =>
    if s.nzcv.evalCondition cond then
      let is64 := operandIs64 (ins.operands 0)
      let a := s.readReg (ins.operands 0)
      let b := s.readOperandValue (ins.operands 1)
      let nzcv :=
        if isSub then
          let result := a - b
          if is64 then .updateSub a b result
          else .updateSub (a.setWidth 32) (b.setWidth 32) (result.setWidth 32)
        else
          let result := a + b
          if is64 then .updateAdd a b result
          else .updateAdd (a.setWidth 32) (b.setWidth 32) (result.setWidth 32)
      ({ s with nzcv }, true)
    else
      let imm := nzcvImm.setWidth 8
      let nzcv : FlagsNZCV := {
        n := imm &&& 0x8 ≠ 0
        z := imm &&& 0x4 ≠ 0
        c := imm &&& 0x2 ≠ 0
        v := imm &&& 0x1 ≠ 0 }
      ({ s with nzcv }, true)
  | _, _ => (s, false)

/-! ### The reference -/

def addWithCarry {w : Nat} (x y : BitVec w) (carryIn : Bool) : BitVec w × FlagsNZCV :=
  let unsignedSum := x.toNat + y.toNat + carryIn.toNat
  let signedSum := x.toInt + y.toInt + carryIn.toNat
  let result := BitVec.ofNat w unsignedSum
  (result, {
    n := result.msb
    z := result = 0
    c := result.toNat ≠ unsignedSum
    v := result.toInt ≠ signedSum })

section Reference

variable {w : Nat} (x y : BitVec w) (carryIn : Bool)

theorem toNat_addWithCarry :
    (addWithCarry x y carryIn).1.toNat = x.toNat + y.toNat + carryIn.toNat ∧
        x.toNat + y.toNat + carryIn.toNat < 2 ^ w ∨
      (addWithCarry x y carryIn).1.toNat + 2 ^ w = x.toNat + y.toNat + carryIn.toNat := by
  have hx := x.isLt
  have hy := y.isLt
  have hc := Bool.toNat_le carryIn
  rw [addWithCarry, toNat_ofNat]
  by_cases hcarry : x.toNat + y.toNat + carryIn.toNat < 2 ^ w
  · exact .inl ⟨mod_eq_of_lt hcarry, hcarry⟩
  · right
    rw [Nat.mod_eq_sub_mod (Nat.le_of_not_lt hcarry), Nat.mod_eq_of_lt (by omega)]
    omega

theorem carry_addWithCarry :
    (addWithCarry x y carryIn).2.c = decide (2 ^ w ≤ x.toNat + y.toNat + carryIn.toNat) := by
  have hpos := Nat.two_pow_pos w
  have hflag : (addWithCarry x y carryIn).2.c =
      decide ((addWithCarry x y carryIn).1.toNat ≠ x.toNat + y.toNat + carryIn.toNat) := rfl
  rw [hflag, decide_eq_decide]
  rcases toNat_addWithCarry x y carryIn with h | h <;> omega

theorem overflow_addWithCarry (hw : 0 < w) : (addWithCarry x y carryIn).2.v =
      decide (x.msb = y.msb ∧ (addWithCarry x y carryIn).1.msb ≠ x.msb) := by
  obtain ⟨k, rfl⟩ : ∃ k, w = k + 1 := ⟨w - 1, by omega⟩
  have hx := x.isLt
  have hy := y.isLt
  have hc := Bool.toNat_le carryIn
  have hsum := toNat_addWithCarry x y carryIn
  have hflag : (addWithCarry x y carryIn).2.v = decide
      ((addWithCarry x y carryIn).1.toInt ≠ x.toInt + y.toInt + carryIn.toNat) := rfl
  rw [hflag]
  generalize (addWithCarry x y carryIn).1 = result at hsum ⊢
  have hresult := result.isLt
  simp only [toInt_eq_msb_cond, msb_eq_decide, Nat.add_sub_cancel,
    decide_eq_true_eq, decide_eq_decide, ne_eq, pow_succ] at hx hy hresult hsum ⊢
  obtain ⟨n, hn⟩ : ∃ n : Nat, 2 ^ k = n := ⟨_, rfl⟩
  rw [hn] at hx hy hresult hsum ⊢
  split <;> split <;> split <;> omega

theorem addWithCarry_false : (addWithCarry x y false).1 = x + y := by
  apply eq_of_toNat_eq
  rw [addWithCarry, toNat_ofNat, toNat_add]
  rfl

theorem addWithCarry_not_true : (addWithCarry x (~~~y) true).1 = x - y := by
  apply eq_of_toNat_eq
  have hy := y.isLt
  rw [addWithCarry, toNat_ofNat, toNat_not, toNat_sub]
  congr 1
  simp only [Bool.toNat_true]
  omega

theorem updateAdd_eq (hw : 0 < w) :
    FlagsNZCV.updateAdd x y (x + y) = (addWithCarry x y false).2 := by
  have hx := x.isLt
  have hy := y.isLt
  have hsum := toNat_addWithCarry x y false
  have hresult := addWithCarry_false x y
  rw [hresult, Bool.toNat_false, add_zero] at hsum
  apply FlagsNZCV.ext
  · exact slt_zero_eq_msb.trans (congrArg BitVec.msb hresult).symm
  · exact congrArg (fun r : BitVec w => decide (r = 0)) hresult.symm
  · rw [carry_addWithCarry, Bool.toNat_false, add_zero, FlagsNZCV.updateAdd, BitVec.ult,
      decide_eq_decide]
    omega
  · rw [overflow_addWithCarry x y false hw, hresult]
    refine slt_zero_eq_msb.trans ?_
    rw [msb_and, msb_xor, msb_xor]
    cases x.msb <;> cases y.msb <;> cases (x + y).msb <;> rfl

theorem updateSub_eq (hw : 0 < w) :
    FlagsNZCV.updateSub x y (x - y) = (addWithCarry x (~~~y) true).2 := by
  have hx := x.isLt
  have hy := y.isLt
  have hresult := addWithCarry_not_true x y
  apply FlagsNZCV.ext
  · exact slt_zero_eq_msb.trans (congrArg BitVec.msb hresult).symm
  · exact congrArg (fun r : BitVec w => decide (r = 0)) hresult.symm
  · rw [carry_addWithCarry, toNat_not, Bool.toNat_true, FlagsNZCV.updateSub, BitVec.ule,
      decide_eq_decide]
    omega
  · rw [overflow_addWithCarry x (~~~y) true hw, hresult]
    refine slt_zero_eq_msb.trans ?_
    rw [msb_and, msb_xor, msb_xor, msb_not, decide_eq_true hw]
    cases x.msb <;> cases y.msb <;> cases (x - y).msb <;> rfl

end Reference

def RegFile.setResult (s : RegFile) (sz : SizeCode) (rd : Fin 32)
    (r : BitVec sz.bits × FlagsNZCV) : RegFile :=
  { s.writeReg (.register sz rd) (r.1.setWidth 64) with nzcv := r.2 }

/-- A handler leaves the result in the destination and its flags, and returns `true`. -/
def RegFile.Leaves (s : RegFile) (sz : SizeCode) (rd : Fin 32) (r : BitVec sz.bits × FlagsNZCV)
    (out : RegFile × Bool) : Prop :=
  s.Writes rd (r.1.setWidth 64) out.1 ∧ out.1.nzcv = r.2 ∧ out.2 = true

/-- What the condition means for two operands that were compared. -/
def Compares {w : Nat} (cond : BitVec 8) (x y : BitVec w) : Prop :=
  match (cond &&& 0xf).toNat with
  | 0 => x = y
  | 1 => x ≠ y
  | 2 => y.toNat ≤ x.toNat
  | 3 => x.toNat < y.toNat
  | 4 => (x - y).msb = true
  | 5 => (x - y).msb = false
  | 6 => (x - y).toInt ≠ x.toInt - y.toInt
  | 7 => (x - y).toInt = x.toInt - y.toInt
  | 8 => y.toNat < x.toNat
  | 9 => x.toNat ≤ y.toNat
  | 10 => y.toInt ≤ x.toInt
  | 11 => x.toInt < y.toInt
  | 12 => y.toInt < x.toInt
  | 13 => x.toInt ≤ y.toInt
  | _ => True

/-! ### The handlers meet the reference -/

theorem SizeCode.bits_pos (sz : SizeCode) : 0 < sz.bits := by
  cases sz <;> decide

theorem SizeCode.bits_le (sz : SizeCode) : sz.bits ≤ 64 := by
  cases sz <;> decide

theorem setWidth_sub_of_le {v w : Nat} (hle : v ≤ w) (x y : BitVec w) :
    (x - y).setWidth v = x.setWidth v - y.setWidth v := by
  rw [← addWithCarry_not_true, ← addWithCarry_not_true, ← setWidth_not hle]
  apply eq_of_toNat_eq
  simp only [addWithCarry, toNat_setWidth, toNat_ofNat]
  rw [mod_mod_of_dvd _ (pow_dvd_pow 2 hle), add_mod (x.toNat % 2 ^ v + _),
    ← add_mod x.toNat, ← add_mod]

theorem RegFile.setResult_eq (s : RegFile) (sz : SizeCode) (rd : Fin 32) (val : BitVec 64)
    (flags : FlagsNZCV) :
    { s with nzcv := flags }.writeReg (.register sz rd) val =
      s.setResult sz rd (val.setWidth sz.bits, flags) := by
  rw [setResult, writeReg, writeReg, truncate_eq, truncate_eq,
    setWidth_setWidth_of_le _ sz.bits_le, setWidth_eq]
  rfl

theorem RegFile.leaves_setResult (s : RegFile) (sz : SizeCode) (rd : Fin 32)
    (r : BitVec sz.bits × FlagsNZCV) : s.Leaves sz rd r (s.setResult sz rd r, true) := by
  have hwrite : s.writeReg (.register sz rd) (r.1.setWidth 64) = s.setX rd (r.1.setWidth 64) := by
    rw [writeReg, truncate_eq, setWidth_setWidth_of_le _ sz.bits_le, setWidth_eq]
  obtain ⟨hx, hsp, hpc, hv⟩ := s.writes_setX rd (r.1.setWidth 64)
  rw [← hwrite] at hx hsp hpc hv
  exact ⟨⟨hx, hsp, hpc, hv⟩, rfl, rfl⟩

theorem flags_ite_is64 (update : ∀ w, BitVec w → BitVec w → BitVec w → FlagsNZCV) (sz : SizeCode)
    (a b result : BitVec 64) : (if is64 sz then update 64 a b result
      else update 32 (a.setWidth 32) (b.setWidth 32) (result.setWidth 32)) =
    update sz.bits (a.setWidth sz.bits) (b.setWidth sz.bits) (result.setWidth sz.bits) := by
  cases sz with
  | x => simp only [is64, SizeCode.bits, setWidth_eq, if_true]
  | w => rfl

theorem RegFile.writeReg_ite_is64 (s : RegFile) (sz : SizeCode) (rd : Fin 32) (val : BitVec 64) :
    s.writeReg (.register sz rd) (if is64 sz then val else val &&& 0xffffffff) =
      s.writeReg (.register sz rd) val := by
  have hmask : (if is64 sz then val else val &&& 0xffffffff) = truncate sz val := rfl
  rw [hmask, writeReg, writeReg, truncate_eq, truncate_eq,
    setWidth_setWidth_of_le _ sz.bits_le, setWidth_eq]

def SizeCode.mask (sz : SizeCode) : BitVec 64 :=
  if is64 sz then BitVec.allOnes 64 else 0xffffffff

theorem SizeCode.and_mask (sz : SizeCode) (val : BitVec 64) :
    val &&& sz.mask = (val.setWidth sz.bits).setWidth 64 := by
  cases sz with
  | x => exact (and_allOnes).trans (setWidth_eq _).symm
  | w => exact RegFile.truncate_eq .w val

theorem SizeCode.and_sign (sz : SizeCode) (val : BitVec sz.bits) :
    val.setWidth 64 &&& (1#64 <<< (sz.bits - 1)) =
      if val.msb then BitVec.twoPow 64 (sz.bits - 1) else 0 := by
  have hlt : sz.bits - 1 < 64 := by cases sz <;> decide
  rw [← twoPow_eq, and_twoPow, getLsbD_setWidth, decide_eq_true hlt, Bool.true_and,
    msb_eq_getLsbD_last]
  rfl

theorem SizeCode.twoPow_ne_zero (sz : SizeCode) : BitVec.twoPow 64 (sz.bits - 1) ≠ 0#64 := by
  cases sz <;> decide

theorem setWidth_eq_zero_iff {v w : Nat} (hle : v ≤ w) (x : BitVec v) :
    x.setWidth w = 0 ↔ x = 0 := by
  have hx : x.toNat < 2 ^ w := Nat.lt_of_lt_of_le x.isLt (Nat.pow_le_pow_right (by decide) hle)
  rw [← toNat_inj, ← toNat_inj, toNat_setWidth, mod_eq_of_lt hx]
  exact Iff.rfl

theorem toNat_wide_sum {w : Nat} (hw : w ≤ 64) (x y : BitVec w) (carryIn : Bool) :
    ((x.setWidth 64).setWidth 128 + (y.setWidth 64).setWidth 128 +
      (BitVec.ofBool carryIn).setWidth 128).toNat = x.toNat + y.toNat + carryIn.toNat := by
  have hle : 2 ^ w ≤ 2 ^ 64 := Nat.pow_le_pow_right (by decide) hw
  have hx := x.isLt
  have hy := y.isLt
  have hc := Bool.toNat_le carryIn
  have hbool : (BitVec.ofBool carryIn).toNat = carryIn.toNat := by cases carryIn <;> rfl
  rw [toNat_add, toNat_add, toNat_setWidth, toNat_setWidth,
    toNat_setWidth, toNat_setWidth, toNat_setWidth, hbool]
  omega

theorem adcResult_eq (sz : SizeCode) (a b : BitVec 64) (carryIn : Bool) :
    adcResult (is64 sz) a b carryIn =
      let sum := addWithCarry (a.setWidth sz.bits) (b.setWidth sz.bits) carryIn
      (sum.1.setWidth 64, sum.2) := by
  have hbits : (if is64 sz then 64 else 32) = sz.bits := by cases sz <;> rfl
  have hmask : (if is64 sz then BitVec.allOnes 64 else 0xffffffff) = sz.mask := rfl
  rw [adcResult, hbits, hmask, sz.and_mask a, sz.and_mask b]
  generalize a.setWidth sz.bits = x
  generalize b.setWidth sz.bits = y
  have hwide := toNat_wide_sum sz.bits_le x y carryIn
  simp only
  generalize (x.setWidth 64).setWidth 128 + (y.setWidth 64).setWidth 128 +
    (BitVec.ofBool carryIn).setWidth 128 = wide at hwide ⊢
  have hresult : wide.setWidth 64 &&& sz.mask = (addWithCarry x y carryIn).1.setWidth 64 := by
    rw [sz.and_mask, setWidth_setWidth_of_le _ sz.bits_le]
    refine congrArg (BitVec.setWidth 64) (eq_of_toNat_eq ?_)
    rw [toNat_setWidth, hwide, addWithCarry, toNat_ofNat]
  rw [hresult, sz.and_sign, sz.and_sign, sz.and_sign]
  have hsign := sz.twoPow_ne_zero
  generalize BitVec.twoPow 64 (sz.bits - 1) = sign at hsign
  refine Prod.ext rfl (FlagsNZCV.ext ?_ ?_ ?_ ?_)
  · have hn : (addWithCarry x y carryIn).2.n = (addWithCarry x y carryIn).1.msb := rfl
    rw [hn]
    cases (addWithCarry x y carryIn).1.msb <;> simp [hsign]
  · have hz : (addWithCarry x y carryIn).2.z = decide ((addWithCarry x y carryIn).1 = 0) := rfl
    rw [hz, decide_eq_decide]
    exact setWidth_eq_zero_iff sz.bits_le _
  · rw [carry_addWithCarry, decide_eq_decide, ← hwide, Ne, ← toNat_inj,
      toNat_ushiftRight, shiftRight_eq_div_pow]
    have hzero : (0 : BitVec 128).toNat = 0 := rfl
    rw [hzero, Nat.div_eq_zero_iff_lt (Nat.two_pow_pos _), Nat.not_lt]
  · rw [overflow_addWithCarry _ _ _ sz.bits_pos]
    cases x.msb <;> cases y.msb <;> cases (addWithCarry x y carryIn).1.msb <;>
      simp [hsign, hsign.symm]

theorem immediate_bit (imm : BitVec 32) {i : Nat} (hi : i < 8) :
    decide (imm.setWidth 8 &&& BitVec.twoPow 8 i ≠ 0#8) = imm.getLsbD i := by
  have hpow : BitVec.twoPow 8 i ≠ 0#8 := by
    intro hzero
    have hbit := congrArg (fun b : BitVec 8 => b.getLsbD i) hzero
    simp [hi] at hbit
  rw [and_twoPow, getLsbD_setWidth, decide_eq_true hi, Bool.true_and]
  cases imm.getLsbD i <;> simp [hpow]

section Handlers

variable (s : RegFile) (sz : SizeCode) (rd : Fin 32) (op₁ op₂ op₃ : Operand)

theorem adds_eq : add s (.of (.register sz rd) op₁ op₂ op₃) true =
      (s.setResult sz rd (addWithCarry ((s.readOperandValue op₁).setWidth sz.bits)
        ((s.readOperandValue op₂).setWidth sz.bits) false), true) := by
  generalize ha : s.readOperandValue op₁ = a
  generalize hb : s.readOperandValue op₂ = b
  have hunfold : add s (.of (.register sz rd) op₁ op₂ op₃) true =
      (RegFile.writeReg
        (if is64 sz then { s with nzcv := .updateAdd a b (a + b) }
          else { s with nzcv := .updateAdd (a.setWidth 32) (b.setWidth 32) ((a + b).setWidth 32) })
        (.register sz rd) (if is64 sz then a + b else (a + b) &&& 0xffffffff), true) := by
    rw [← ha, ← hb]
    rfl
  rw [hunfold, RegFile.writeReg_ite_is64,
    ← apply_ite (fun nzcv => { s with nzcv := nzcv : RegFile }),
    flags_ite_is64 (@FlagsNZCV.updateAdd), RegFile.setResult_eq, setWidth_add _ _ sz.bits_le,
    updateAdd_eq _ _ sz.bits_pos, ← addWithCarry_false]

theorem subs_eq : sub s (.of (.register sz rd) op₁ op₂ op₃) true =
      (s.setResult sz rd (addWithCarry ((s.readOperandValue op₁).setWidth sz.bits)
        (~~~(s.readOperandValue op₂).setWidth sz.bits) true), true) := by
  generalize ha : s.readOperandValue op₁ = a
  generalize hb : s.readOperandValue op₂ = b
  have hunfold : sub s (.of (.register sz rd) op₁ op₂ op₃) true =
      let s' := if is64 sz then { s with nzcv := .updateSub a b (a - b) }
        else { s with nzcv := .updateSub (a.setWidth 32) (b.setWidth 32) ((a - b).setWidth 32) }
      if decide (rd = 31) then (s', true)
      else (s'.writeReg (.register sz rd) (if is64 sz then a - b else (a - b) &&& 0xffffffff),
        true) := by
    rw [← ha, ← hb]
    rfl
  have hwrite : ∀ s' : RegFile, ∀ val,
      (if decide (rd = 31) then (s', true) else (s'.writeReg (.register sz rd) val, true)) =
        (s'.writeReg (.register sz rd) val, true) := by
    intro s' val
    split
    case isTrue hzero =>
        rw [of_decide_eq_true hzero]
        rfl
    case isFalse => rfl
  rw [hunfold]
  simp only
  rw [hwrite, RegFile.writeReg_ite_is64,
    ← apply_ite (fun nzcv => { s with nzcv := nzcv : RegFile }),
    flags_ite_is64 (@FlagsNZCV.updateSub), RegFile.setResult_eq, setWidth_sub_of_le sz.bits_le,
    updateSub_eq _ _ sz.bits_pos, ← addWithCarry_not_true]

theorem adcs_eq (subtract : Bool) : adc s (.of (.register sz rd) op₁ op₂ op₃) subtract true =
      (s.setResult sz rd (addWithCarry ((s.readReg op₁).setWidth sz.bits)
        (if subtract then ~~~(s.readReg op₂).setWidth sz.bits
          else (s.readReg op₂).setWidth sz.bits) s.nzcv.c), true) := by
  let b := if subtract then ~~~s.readReg op₂ else s.readReg op₂
  have hy : b.setWidth sz.bits = if subtract then ~~~(s.readReg op₂).setWidth sz.bits
      else (s.readReg op₂).setWidth sz.bits := by
    rw [apply_ite (BitVec.setWidth sz.bits), setWidth_not sz.bits_le]
  have hunfold : adc s (.of (.register sz rd) op₁ op₂ op₃) subtract true =
      let r := adcResult (is64 sz) (s.readReg op₁) b s.nzcv.c
      ({ s with nzcv := r.2 }.writeReg (.register sz rd) r.1, true) := rfl
  rw [hunfold, adcResult_eq, ← hy]
  simp only
  rw [RegFile.setResult_eq, setWidth_setWidth_of_le _ sz.bits_le, setWidth_eq]

theorem ccmp_eq (imm : BitVec 32) (cond : BitVec 8) (isSub : Bool) :
    ccmp s (.of (.register sz rd) op₁ (.immediate imm) (.conditionCode cond)) isSub =
      ({ s with nzcv :=
        if s.nzcv.evalCondition cond then
          let x := (s.readReg (.register sz rd)).setWidth sz.bits
          let y := (s.readOperandValue op₁).setWidth sz.bits
          if isSub then (addWithCarry x (~~~y) true).2 else (addWithCarry x y false).2
        else ⟨imm.getLsbD 3, imm.getLsbD 2, imm.getLsbD 1, imm.getLsbD 0⟩ }, true) := by
  generalize ha : s.readReg (.register sz rd) = a
  generalize hb : s.readOperandValue op₁ = b
  have hunfold : ccmp s (.of (.register sz rd) op₁ (.immediate imm) (.conditionCode cond)) isSub =
      if s.nzcv.evalCondition cond then
        ({ s with nzcv :=
          if isSub then
            if is64 sz then .updateSub a b (a - b)
            else .updateSub (a.setWidth 32) (b.setWidth 32) ((a - b).setWidth 32)
          else
            if is64 sz then .updateAdd a b (a + b)
            else .updateAdd (a.setWidth 32) (b.setWidth 32) ((a + b).setWidth 32) }, true)
      else
        ({ s with nzcv := ⟨imm.setWidth 8 &&& 0x8 ≠ 0, imm.setWidth 8 &&& 0x4 ≠ 0,
          imm.setWidth 8 &&& 0x2 ≠ 0, imm.setWidth 8 &&& 0x1 ≠ 0⟩ }, true) := by
    rw [← ha, ← hb]
    rfl
  rw [hunfold]
  split
  case isTrue =>
      rw [flags_ite_is64 (@FlagsNZCV.updateSub), flags_ite_is64 (@FlagsNZCV.updateAdd),
        setWidth_sub_of_le sz.bits_le, setWidth_add _ _ sz.bits_le,
        updateSub_eq _ _ sz.bits_pos, updateAdd_eq _ _ sz.bits_pos]
  case isFalse =>
      refine Prod.ext (congrArg (fun nzcv => { s with nzcv := nzcv : RegFile }) ?_) rfl
      apply FlagsNZCV.ext
      · exact immediate_bit imm (show 3 < 8 by decide)
      · exact immediate_bit imm (show 2 < 8 by decide)
      · exact immediate_bit imm (show 1 < 8 by decide)
      · exact immediate_bit imm (show 0 < 8 by decide)

end Handlers

/-! ### Comparisons -/

section Compare

variable {w : Nat} (x y : BitVec w)

theorem slt_iff_sign (hw : 0 < w) :
    x.toInt < y.toInt ↔ ((x - y).msb = true ↔ (x - y).toInt = x.toInt - y.toInt) := by
  obtain ⟨k, rfl⟩ : ∃ k, w = k + 1 := ⟨w - 1, by omega⟩
  have hx := x.isLt
  have hy := y.isLt
  have hsub := toNat_addWithCarry x (~~~y) true
  rw [addWithCarry_not_true, toNat_not, Bool.toNat_true] at hsub
  generalize x - y = result at hsub ⊢
  have hresult := result.isLt
  simp only [toInt_eq_msb_cond, msb_eq_decide,
    decide_eq_true_eq, pow_succ] at hx hy hresult hsub ⊢
  obtain ⟨n, hn⟩ : ∃ n : Nat, 2 ^ k = n := ⟨_, rfl⟩
  rw [hn] at hx hy hresult hsub ⊢
  split <;> split <;> split <;> omega

theorem toInt_not_eq (hw : 0 < w) : (~~~y).toInt = -y.toInt - 1 := by
  obtain ⟨k, rfl⟩ : ∃ k, w = k + 1 := ⟨w - 1, by omega⟩
  have hy := y.isLt
  simp only [toInt_eq_msb_cond, msb_eq_decide, toNat_not, Nat.add_sub_cancel,
    decide_eq_true_eq, pow_succ] at hy ⊢
  obtain ⟨n, hn⟩ : ∃ n : Nat, 2 ^ k = n := ⟨_, rfl⟩
  rw [hn] at hy ⊢
  split <;> split <;> omega

theorem cmp_flags (hw : 0 < w) : (addWithCarry x (~~~y) true).2 =
      ⟨(x - y).msb, x = y, y.toNat ≤ x.toNat, (x - y).toInt ≠ x.toInt - y.toInt⟩ := by
  rw [← updateSub_eq x y hw]
  apply FlagsNZCV.ext
  · exact slt_zero_eq_msb
  · exact decide_eq_decide.mpr sub_eq_zero
  · rfl
  rw [updateSub_eq x y hw]
  have hflag : (addWithCarry x (~~~y) true).2.v = decide
      ((addWithCarry x (~~~y) true).1.toInt ≠ x.toInt + (~~~y).toInt + 1) := rfl
  rw [hflag, addWithCarry_not_true, toInt_not_eq y hw, decide_eq_decide]
  omega

theorem sign_eq_overflow_iff (hw : 0 < w) :
    ((x - y).msb == decide ((x - y).toInt ≠ x.toInt - y.toInt)) = true ↔ y.toInt ≤ x.toInt := by
  have hslt := slt_iff_sign x y hw
  rw [beq_iff_eq, Bool.eq_iff_iff, decide_eq_true_iff, ← Int.not_lt, hslt]
  by_cases hsign : (x - y).msb = true <;> simp [hsign]

theorem evalCondition_cmp (hw : 0 < w) (cond : BitVec 8) :
    (addWithCarry x (~~~y) true).2.evalCondition cond = true ↔ Compares cond x y := by
  have hle := sign_eq_overflow_iff x y hw
  have hlt : ((x - y).msb != decide ((x - y).toInt ≠ x.toInt - y.toInt)) = true ↔
      x.toInt < y.toInt := by
    rw [bne, Bool.not_eq_true', ← Bool.not_eq_true, hle, Int.not_le]
  have heqNat : x = y ↔ x.toNat = y.toNat := toNat_inj.symm
  have heqInt : x = y ↔ x.toInt = y.toInt := toInt_inj.symm
  rw [cmp_flags x y hw, FlagsNZCV.evalCondition, Compares]
  generalize (cond &&& 0xf).toNat = m
  match m with
  | 0 | 1 | 2 | 3 | 4 | 5 | 6 | 7 => simp
  | 8 | 9 =>
    simp only [Bool.and_eq_true, Bool.or_eq_true, Bool.not_eq_true', decide_eq_true_eq,
      decide_eq_false_iff_not, heqNat]
    omega
  | 10 => exact hle
  | 11 => exact hlt
  | 12 =>
    change (!decide (x = y) && _) = true ↔ y.toInt < x.toInt
    rw [Bool.and_eq_true, hle, Bool.not_eq_true', decide_eq_false_iff_not, heqInt]
    omega
  | 13 =>
    change (decide (x = y) || _) = true ↔ x.toInt ≤ y.toInt
    rw [Bool.or_eq_true, hlt, decide_eq_true_eq, heqInt]
    omega
  | _ + 14 => simp

end Compare

end Mwemu.Aarch64
