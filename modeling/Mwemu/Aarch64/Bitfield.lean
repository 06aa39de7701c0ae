import Mwemu.Aarch64.Flags

/-!
# AArch64 bitfield moves

`UBFM`, `SBFM` and `BFM` build the masks of a field with shifts of a 64-bit word. The first two
build a mask of the whole word as `(1 << 64) - 1`, which is a shift by the full width; every other
field is moved as the architecture's rotate-and-mask definition moves it.
-/

namespace Mwemu.Aarch64

open BitVec

/-! ### The handlers -/

def shl (x : BitVec 64) (n : Nat) : Option (BitVec 64) :=
  if n < 64 then some (x <<< n) else none

def shr (x : BitVec 64) (n : Nat) : Option (BitVec 64) :=
  if n < 64 then some (x >>> n) else none

def addU32 (a b : Nat) : Option Nat :=
  if a + b < 2 ^ 32 then some (a + b) else none

def subU32 (a b : Nat) : Option Nat :=
  if b ≤ a then some (a - b) else none

def ones (width : Nat) : Option (BitVec 64) := do
  return (← shl 1 width) - 1

def ubfmResult (bits : Nat) (src : BitVec 64) (immr imms : Nat) : Option (BitVec 64) :=
  if immr ≤ imms then do
    let width ← addU32 (imms - immr) 1
    return (← shr src immr) &&& (← ones width)
  else do
    let width ← addU32 imms 1
    let field := src &&& (← ones width)
    let pos ← subU32 bits immr
    shl field pos

def signMask (width total : Nat) : Option (BitVec 64) := do
  let mask := ~~~(← ones width)
  if total < 64 then return mask &&& (← ones total) else return mask

def signExtend (val : BitVec 64) (width total : Nat) : Option (BitVec 64) :=
  if width = 0 ∨ total ≤ width then some val
  else do
    let signBit := (← shr val (width - 1)) &&& 1
    if signBit = 1 then return val ||| (← signMask width total) else return val

def signExtendFrom (val : BitVec 64) (msb total : Nat) : Option (BitVec 64) :=
  if total ≤ msb + 1 then some val
  else do
    let signBit := (← shr val msb) &&& 1
    if signBit = 1 then return val ||| (← signMask (msb + 1) total)
    else return val &&& (← ones (msb + 1))

def sbfmResult (bits : Nat) (src : BitVec 64) (immr imms : Nat) : Option (BitVec 64) :=
  if immr ≤ imms then do
    let width ← addU32 (imms - immr) 1
    let field := (← shr src immr) &&& (← ones width)
    signExtend field width bits
  else do
    let width ← addU32 imms 1
    let field := src &&& (← ones width)
    let pos ← subU32 bits immr
    let placed ← shl field pos
    signExtendFrom placed (pos + width - 1) bits

def lowMask (width : Nat) : Option (BitVec 64) :=
  if 64 ≤ width then some (BitVec.allOnes 64) else ones width

def bfmField (bits : Nat) (src : BitVec 64) (immr imms : Nat) :
    Option (BitVec 64 × Nat × Nat) :=
  if immr ≤ imms then do
    let width ← addU32 (imms - immr) 1
    return (← shr src immr, 0, width)
  else do
    return (src, ← subU32 bits immr, ← addU32 imms 1)

def bfmResult (bits : Nat) (dst src : BitVec 64) (immr imms : Nat) : Option (BitVec 64) := do
  let (field, lsb, width) ← bfmField bits src immr imms
  let mask ← shl (← lowMask width) lsb
  return (dst &&& ~~~mask) ||| ((← shl field lsb) &&& mask)

section Handlers

variable (s : RegFile) (ins : Instruction)

def ubfm : Option (RegFile × Bool) := do
  let is64 := operandIs64 (ins.operands 0)
  let src := s.readOperandValue (ins.operands 1)
  let immr := ((s.readOperandValue (ins.operands 2)).setWidth 32).toNat
  let imms := ((s.readOperandValue (ins.operands 3)).setWidth 32).toNat
  let bits := if is64 then 64 else 32
  let result ← ubfmResult bits src immr imms
  let result := if is64 then result else result &&& 0xffffffff
  return (s.writeReg (ins.operands 0) result, true)

def sbfm : Option (RegFile × Bool) := do
  let is64 := operandIs64 (ins.operands 0)
  let src := s.readOperandValue (ins.operands 1)
  let immr := ((s.readOperandValue (ins.operands 2)).setWidth 32).toNat
  let imms := ((s.readOperandValue (ins.operands 3)).setWidth 32).toNat
  let bits := if is64 then 64 else 32
  let result ← sbfmResult bits src immr imms
  let result := if is64 then result else result &&& 0xffffffff
  return (s.writeReg (ins.operands 0) result, true)

def bfm : Option (RegFile × Bool) := do
  let bits := if operandIs64 (ins.operands 0) then 64 else 32
  let dst := s.readReg (ins.operands 0)
  let src := s.readReg (ins.operands 1)
  let immr := ((readImm (ins.operands 2)).setWidth 32).toNat
  let imms := ((readImm (ins.operands 3)).setWidth 32).toNat
  let result ← bfmResult bits dst src immr imms
  return (s.writeReg (ins.operands 0) result, true)

end Handlers

/-! ### The reference -/

/-- What becomes of the bits outside the field: zeros, copies of its sign, or the destination's. -/
inductive BitfieldMove where
  | ubfm
  | sbfm
  | bfm
  deriving DecidableEq, Repr

def BitfieldMove.execute : BitfieldMove → RegFile → Instruction → Option (RegFile × Bool)
  | .ubfm => Aarch64.ubfm
  | .sbfm => Aarch64.sbfm
  | .bfm => Aarch64.bfm

section Reference

variable {w : Nat} (move : BitfieldMove) (dst src : BitVec w) (immr imms : Nat)

/-- The result from the rotated source: `wmask` has the bits that come from it, and `tmask` the bits
below the end of the field. -/
def mergeField (rotated wmask tmask : BitVec w) : BitVec w :=
  let bot := rotated &&& wmask
  match move with
  | .ubfm => bot &&& tmask
  | .sbfm => (if src.getLsbD imms then ~~~tmask else 0) ||| (bot &&& tmask)
  | .bfm => (dst &&& ~~~tmask) ||| (((dst &&& ~~~wmask) ||| bot) &&& tmask)

def bitfieldMove : BitVec w :=
  let wmask := ((BitVec.allOnes (imms + 1)).setWidth w).rotateRight immr
  let tmask := (BitVec.allOnes ((imms + w - immr) % w + 1)).setWidth w
  mergeField move dst src imms (src.rotateRight immr) wmask tmask

def bitAbove (i : Nat) : Bool :=
  match move with
  | .ubfm => false
  | .sbfm => src.getLsbD imms
  | .bfm => dst.getLsbD i

def bitBelow (i : Nat) : Bool :=
  match move with
  | .ubfm | .sbfm => false
  | .bfm => dst.getLsbD i

/-- The field `imms..immr` goes to bit 0, or the low `imms + 1` bits go to bit `w - immr`. -/
def fieldBit (i : Nat) : Bool :=
  if immr ≤ imms then
    if i < imms - immr + 1 then src.getLsbD (immr + i) else bitAbove move dst src imms i
  else if i < w - immr then bitBelow move dst i
  else if i < w - immr + (imms + 1) then src.getLsbD (i - (w - immr))
  else bitAbove move dst src imms i

section MergeField

variable {i : Nat} (hi : i < w) {rotated wmask tmask : BitVec w}
include hi

theorem getLsbD_mergeField_above (htmask : tmask.getLsbD i = false) :
    (mergeField move dst src imms rotated wmask tmask).getLsbD i =
      bitAbove move dst src imms i := by
  cases move with
  | ubfm => simp [mergeField, bitAbove, htmask]
  | bfm => simp [mergeField, bitAbove, htmask, hi, -getLsbD_eq_getElem]
  | sbfm =>
    cases hsign : src.getLsbD imms <;>
      simp [mergeField, bitAbove, htmask, hi, hsign, -getLsbD_eq_getElem]

omit hi in
theorem getLsbD_mergeField (htmask : tmask.getLsbD i = true) (hwmask : wmask.getLsbD i = true) :
    (mergeField move dst src imms rotated wmask tmask).getLsbD i = rotated.getLsbD i := by
  cases move with
  | ubfm => simp [mergeField, htmask, hwmask]
  | bfm => simp [mergeField, htmask, hwmask]
  | sbfm => cases hsign : src.getLsbD imms <;> simp [mergeField, htmask, hwmask, hsign]

theorem getLsbD_mergeField_below (htmask : tmask.getLsbD i = true)
    (hwmask : wmask.getLsbD i = false) :
    (mergeField move dst src imms rotated wmask tmask).getLsbD i = bitBelow move dst i := by
  cases move with
  | ubfm => simp [mergeField, bitBelow, hwmask]
  | bfm => simp [mergeField, bitBelow, htmask, hwmask, hi, -getLsbD_eq_getElem]
  | sbfm => cases hsign : src.getLsbD imms <;> simp [mergeField, bitBelow, htmask, hwmask, hsign]

end MergeField

variable {immr imms}

variable {i : Nat}

theorem getLsbD_rotateRight_of_lt (hr : immr < w) (hi : i < w) : (src.rotateRight immr).getLsbD i =
      src.getLsbD (if i < w - immr then immr + i else i - (w - immr)) := by
  rw [getLsbD_rotateRight, Nat.mod_eq_of_lt hr, decide_eq_true hi, Bool.true_and]
  by_cases hlow : i < w - immr <;> simp [hlow]

theorem getLsbD_tmask (hr : immr < w) (hs : imms < w) (hi : i < w) :
    ((BitVec.allOnes ((imms + w - immr) % w + 1)).setWidth w).getLsbD i =
      decide (i < if immr ≤ imms then imms - immr + 1 else w - immr + (imms + 1)) := by
  rw [getLsbD_setWidth, getLsbD_allOnes, decide_eq_true hi, Bool.true_and, decide_eq_decide]
  split
  · rw [Nat.mod_eq_sub_mod (by omega), Nat.mod_eq_of_lt (by omega)]
    omega
  · rw [Nat.mod_eq_of_lt (by omega)]
    omega

theorem getLsbD_bitfieldMove (hr : immr < w) (hs : imms < w) (hi : i < w) :
    (bitfieldMove move dst src immr imms).getLsbD i = fieldBit move dst src immr imms i := by
  have htmask := getLsbD_tmask hr hs hi
  have hwmask := getLsbD_rotateRight_of_lt ((BitVec.allOnes (imms + 1)).setWidth w) hr hi
  have hrotated := getLsbD_rotateRight_of_lt src hr hi
  rw [getLsbD_setWidth, getLsbD_allOnes] at hwmask
  unfold bitfieldMove fieldBit
  split
  next hle =>
    rw [if_pos hle] at htmask
    split
    next hin =>
      rw [if_pos (by omega)] at hwmask hrotated
      rw [getLsbD_mergeField move dst src imms (by rw [htmask]; simpa using hin)
        (by rw [hwmask]; simp; omega), hrotated]
    next hout =>
      exact getLsbD_mergeField_above move dst src imms hi (by rw [htmask]; simpa using hout)
  next hle =>
    rw [if_neg hle] at htmask
    split
    next hbelow =>
      rw [if_pos hbelow] at hwmask
      exact getLsbD_mergeField_below move dst src imms hi (by rw [htmask]; simp; omega)
        (by rw [hwmask]; simp; omega)
    next hbelow =>
      rw [if_neg hbelow] at hwmask hrotated
      split
      next hin =>
        rw [getLsbD_mergeField move dst src imms (by rw [htmask]; simpa using hin)
          (by rw [hwmask]; simp; omega), hrotated]
      next hout =>
        exact getLsbD_mergeField_above move dst src imms hi (by rw [htmask]; simpa using hout)

end Reference

/-! ### The handlers meet the reference -/

variable {width : Nat}

theorem ones_eq_some (hwidth : width < 64) :
    ∃ mask, ones width = some mask ∧ ∀ i, mask.getLsbD i = decide (i < width) := by
  refine ⟨1#64 <<< width - 1, ?_, fun i => ?_⟩
  · rw [ones, shl, if_pos hwidth]
    rfl
  have hpow : 2 ^ width < 2 ^ 64 := Nat.pow_lt_pow_right (by decide) hwidth
  have hone : (1#64 <<< width).toNat = 2 ^ width := by
    rw [toNat_shiftLeft, toNat_ofNat, Nat.shiftLeft_eq, Nat.mod_eq_of_lt]
    · simp
    · simpa
  have hmask : (1#64 <<< width - 1#64).toNat = 2 ^ width - 1 := by
    rw [toNat_sub_of_le, hone]
    · rfl
    · rw [le_def, hone]
      exact Nat.two_pow_pos width
  change (1#64 <<< width - 1#64).toNat.testBit i = _
  rw [hmask, Nat.testBit_two_pow_sub_one]

variable {total : Nat}

theorem signMask_eq_some (hwidth : width < 64) (htotal : total ≤ 64) :
    ∃ mask, signMask width total = some mask ∧
      ∀ i, mask.getLsbD i = (decide (width ≤ i) && decide (i < total)) := by
  obtain ⟨low, hlow, hbit⟩ := ones_eq_some hwidth
  by_cases hword : total < 64
  · obtain ⟨all, hall, hbitAll⟩ := ones_eq_some hword
    refine ⟨~~~low &&& all, ?_, fun i => ?_⟩
    · simp [signMask, hlow, hall, hword]
    · rw [getLsbD_and, getLsbD_not, hbit, hbitAll]
      grind
  · refine ⟨~~~low, ?_, fun i => ?_⟩
    · simp [signMask, hlow, hword]
    · rw [getLsbD_not, hbit]
      grind

theorem shiftRight_and_one_eq_one_iff (val : BitVec 64) (n : Nat) :
    val >>> n &&& 1#64 = 1#64 ↔ val.getLsbD n = true := by
  rw [and_one_eq_setWidth_ofBool_getLsbD, getLsbD_ushiftRight, Nat.add_zero]
  cases val.getLsbD n <;> simp

theorem signExtend_eq_some (val : BitVec 64) (hpos : 0 < width) (hwidth : width < 64)
    (htotal : total ≤ 64) (hval : ∀ i, width ≤ i → val.getLsbD i = false) :
    ∃ result, signExtend val width total = some result ∧
      ∀ i < total, result.getLsbD i = val.getLsbD (if i < width then i else width - 1) := by
  obtain ⟨mask, hmask, hbit⟩ := signMask_eq_some hwidth htotal
  unfold signExtend
  by_cases hwhole : total ≤ width
  · refine ⟨val, if_pos (.inr hwhole), fun i hi => ?_⟩
    rw [if_pos (by omega)]
  rw [if_neg (by omega), shr, if_pos (by omega)]
  by_cases hsign : val.getLsbD (width - 1) = true
  · refine ⟨val ||| mask, ?_, fun i hi => ?_⟩
    · simp [(shiftRight_and_one_eq_one_iff val _).2 hsign, hmask]
    · rw [getLsbD_or, hbit]
      grind
  · refine ⟨val, ?_, fun i hi => ?_⟩
    · simp [mt (shiftRight_and_one_eq_one_iff val _).1 hsign]
    · grind

theorem signExtendFrom_eq_some (val : BitVec 64) {msb : Nat} (hmsb : msb < total)
    (htotal : total ≤ 64) : ∃ result, signExtendFrom val msb total = some result ∧
      ∀ i < total, result.getLsbD i = val.getLsbD (if i < msb + 1 then i else msb) := by
  unfold signExtendFrom
  by_cases hwhole : total ≤ msb + 1
  · refine ⟨val, if_pos hwhole, fun i hi => ?_⟩
    rw [if_pos (by omega)]
  obtain ⟨mask, hmask, hbit⟩ := signMask_eq_some (show msb + 1 < 64 by omega) htotal
  obtain ⟨low, hlow, hbitLow⟩ := ones_eq_some (show msb + 1 < 64 by omega)
  rw [if_neg hwhole, shr, if_pos (by omega)]
  by_cases hsign : val.getLsbD msb = true
  · refine ⟨val ||| mask, ?_, fun i hi => ?_⟩
    · simp [(shiftRight_and_one_eq_one_iff val _).2 hsign, hmask]
    · rw [getLsbD_or, hbit]
      grind
  · refine ⟨val &&& low, ?_, fun i hi => ?_⟩
    · simp [mt (shiftRight_and_one_eq_one_iff val _).1 hsign, hlow]
    · rw [getLsbD_and, hbitLow]
      grind

theorem lowMask_eq_some (width : Nat) :
    ∃ mask, lowMask width = some mask ∧ ∀ i < 64, mask.getLsbD i = decide (i < width) := by
  unfold lowMask
  by_cases hword : 64 ≤ width
  · refine ⟨BitVec.allOnes 64, if_pos hword, fun i hi => ?_⟩
    rw [getLsbD_allOnes, decide_eq_decide]
    omega
  · obtain ⟨mask, hmask, hbit⟩ := ones_eq_some (Nat.lt_of_not_le hword)
    exact ⟨mask, (if_neg hword).trans hmask, fun i _ => hbit i⟩

variable {i : Nat}

theorem getLsbD_merge (dst field mask : BitVec 64) (lsb width : Nat) (hi : i < 64)
    (hmask : ∀ i < 64, mask.getLsbD i = decide (i < width)) :
    ((dst &&& ~~~(mask <<< lsb)) ||| (field <<< lsb &&& mask <<< lsb)).getLsbD i =
      if lsb ≤ i ∧ i < lsb + width then field.getLsbD (i - lsb) else dst.getLsbD i := by
  rw [getLsbD_or, getLsbD_and, getLsbD_and, getLsbD_not,
    getLsbD_shiftLeft, getLsbD_shiftLeft, hmask _ (by omega), decide_eq_true hi]
  split
  next hin =>
    rw [decide_eq_false (show ¬i < lsb by omega), decide_eq_true (show i - lsb < width by omega)]
    simp
  next hout =>
    by_cases hlow : i < lsb
    · simp [hlow]
    · simp [show ¬i - lsb < width by omega]

section Results

variable {bits : Nat} (dst src : BitVec 64) {immr imms : Nat} (hr : immr < bits)
include hr

theorem eq_bitfieldMove (hs : imms < bits) {move : BitfieldMove} {result : BitVec 64}
    (hresult : ∀ i < bits, result.getLsbD i =
      fieldBit move (dst.setWidth bits) (src.setWidth bits) immr imms i) : result.setWidth bits =
      bitfieldMove move (dst.setWidth bits) (src.setWidth bits) immr imms := by
  apply eq_of_getLsbD_eq
  intro i hi
  rw [getLsbD_bitfieldMove move _ _ hr hs hi, ← hresult i hi, getLsbD_setWidth,
    decide_eq_true hi, Bool.true_and]

variable (hbits : bits ≤ 64)
include hbits

theorem extract_eq_some (hfull : imms - immr < 63) :
    ∃ mask, addU32 (imms - immr) 1 = some (imms - immr + 1) ∧ shr src immr = some (src >>> immr) ∧
      ones (imms - immr + 1) = some mask ∧ ∀ i, (src >>> immr &&& mask).getLsbD i =
        (decide (i < imms - immr + 1) && src.getLsbD (immr + i)) := by
  obtain ⟨mask, hmask, hbit⟩ := ones_eq_some (show imms - immr + 1 < 64 by omega)
  refine ⟨mask, if_pos (by omega), if_pos (by omega), hmask, fun i => ?_⟩
  rw [getLsbD_and, getLsbD_ushiftRight, hbit, Bool.and_comm]

theorem insert_eq_some (hlt : imms < immr) :
    ∃ mask, addU32 imms 1 = some (imms + 1) ∧ ones (imms + 1) = some mask ∧
      subU32 bits immr = some (bits - immr) ∧
      shl (src &&& mask) (bits - immr) = some ((src &&& mask) <<< (bits - immr)) ∧
      ∀ i < bits, ((src &&& mask) <<< (bits - immr)).getLsbD i =
        (decide (bits - immr ≤ i ∧ i < bits - immr + (imms + 1)) &&
          src.getLsbD (i - (bits - immr))) := by
  obtain ⟨mask, hmask, hbit⟩ := ones_eq_some (show imms + 1 < 64 by omega)
  refine ⟨mask, if_pos (by omega), hmask, if_pos (by omega), if_pos (by omega), fun i hi => ?_⟩
  rw [getLsbD_shiftLeft, getLsbD_and, hbit]
  grind

variable (hs : imms < bits)
include hs

theorem ubfmResult_eq (hfull : imms - immr < 63) :
    ∃ result, ubfmResult bits src immr imms = some result ∧ result.setWidth bits =
        bitfieldMove .ubfm (dst.setWidth bits) (src.setWidth bits) immr imms := by
  unfold ubfmResult
  by_cases hle : immr ≤ imms
  · obtain ⟨mask, hwidth, hshr, hmask, hbit⟩ := extract_eq_some src hr hbits hfull
    refine ⟨src >>> immr &&& mask, ?_, eq_bitfieldMove dst src hr hs fun i hi => ?_⟩
    · simp [hle, hwidth, hshr, hmask]
    · rw [hbit, fieldBit, if_pos hle, getLsbD_setWidth, bitAbove]
      grind
  · obtain ⟨mask, hwidth, hmask, hpos, hshl, hbit⟩ := insert_eq_some src hr hbits (Nat.lt_of_not_le hle)
    refine ⟨(src &&& mask) <<< (bits - immr), ?_, eq_bitfieldMove dst src hr hs fun i hi => ?_⟩
    · simp [hle, hwidth, hmask, hpos, hshl]
    · rw [hbit i hi, fieldBit, if_neg hle, getLsbD_setWidth, bitAbove, bitBelow]
      grind

theorem sbfmResult_eq (hfull : imms - immr < 63) :
    ∃ result, sbfmResult bits src immr imms = some result ∧ result.setWidth bits =
        bitfieldMove .sbfm (dst.setWidth bits) (src.setWidth bits) immr imms := by
  unfold sbfmResult
  by_cases hle : immr ≤ imms
  · obtain ⟨mask, hwidth, hshr, hmask, hbit⟩ := extract_eq_some src hr hbits hfull
    obtain ⟨result, hextend, hresult⟩ := signExtend_eq_some (src >>> immr &&& mask)
      (Nat.succ_pos (imms - immr)) (by omega) hbits
      (fun i hi => by rw [hbit, decide_eq_false (by omega), Bool.false_and])
    refine ⟨result, ?_, eq_bitfieldMove dst src hr hs fun i hi => ?_⟩
    · simp [hle, hwidth, hshr, hmask, hextend]
    · rw [hresult i hi, hbit, fieldBit, if_pos hle, bitAbove]
      by_cases hin : i < imms - immr + 1
      · simp [hin, show immr + i < bits by omega, -getLsbD_eq_getElem]
      · simp [hin, show immr + (imms - immr) = imms by omega, hs, -getLsbD_eq_getElem]
  · obtain ⟨mask, hwidth, hmask, hpos, hshl, hbit⟩ := insert_eq_some src hr hbits (Nat.lt_of_not_le hle)
    obtain ⟨result, hextend, hresult⟩ := signExtendFrom_eq_some
      ((src &&& mask) <<< (bits - immr)) (show bits - immr + imms < bits by omega) hbits
    refine ⟨result, ?_, eq_bitfieldMove dst src hr hs fun i hi => ?_⟩
    · have hmsb : bits - immr + (imms + 1) - 1 = bits - immr + imms := by omega
      simp [hle, hwidth, hmask, hpos, hshl, hmsb, hextend]
    rw [hresult i hi, hbit _ (by split <;> omega), fieldBit, if_neg hle, bitAbove, bitBelow]
    by_cases hbelow : i < bits - immr
    · rw [if_pos (show i < bits - immr + imms + 1 by omega), if_pos hbelow,
        decide_eq_false (by omega), Bool.false_and]
    by_cases hin : i < bits - immr + (imms + 1)
    · rw [if_pos (show i < bits - immr + imms + 1 by omega), if_neg hbelow, if_pos hin,
        decide_eq_true (by omega), Bool.true_and, getLsbD_setWidth,
        decide_eq_true (by omega), Bool.true_and]
    · rw [if_neg (show ¬i < bits - immr + imms + 1 by omega), if_neg hbelow, if_neg hin,
        decide_eq_true (by omega), Bool.true_and, Nat.add_sub_cancel_left,
        getLsbD_setWidth, decide_eq_true hs, Bool.true_and]

theorem bfmResult_eq : ∃ result, bfmResult bits dst src immr imms = some result ∧
      result.setWidth bits =
        bitfieldMove .bfm (dst.setWidth bits) (src.setWidth bits) immr imms := by
  unfold bfmResult bfmField
  by_cases hle : immr ≤ imms
  · obtain ⟨mask, hmask, hbit⟩ := lowMask_eq_some (imms - immr + 1)
    refine ⟨(dst &&& ~~~(mask <<< 0)) ||| ((src >>> immr) <<< 0 &&& mask <<< 0), ?_,
      eq_bitfieldMove dst src hr hs fun i hi => ?_⟩
    · simp [hle, addU32, shr, shl, hmask, show imms - immr + 1 < 4294967296 by omega,
        show immr < 64 by omega]
    rw [getLsbD_merge dst _ mask 0 (imms - immr + 1) (by omega) hbit, fieldBit, if_pos hle,
      bitAbove, getLsbD_ushiftRight, getLsbD_setWidth, getLsbD_setWidth]
    by_cases hin : i < imms - immr + 1
    · rw [if_pos (by omega), if_pos hin, Nat.sub_zero, decide_eq_true (by omega), Bool.true_and]
    · rw [if_neg (by omega), if_neg hin, decide_eq_true hi, Bool.true_and]
  · obtain ⟨mask, hmask, hbit⟩ := lowMask_eq_some (imms + 1)
    refine ⟨(dst &&& ~~~(mask <<< (bits - immr))) |||
      (src <<< (bits - immr) &&& mask <<< (bits - immr)), ?_,
      eq_bitfieldMove dst src hr hs fun i hi => ?_⟩
    · simp [hle, addU32, subU32, shl, hmask, show imms + 1 < 4294967296 by omega,
        show immr ≤ bits by omega, show bits - immr < 64 by omega]
    · rw [getLsbD_merge dst _ mask (bits - immr) (imms + 1) (by omega) hbit, fieldBit,
        if_neg hle, bitAbove, bitBelow, getLsbD_setWidth, getLsbD_setWidth]
      grind

end Results

def BitfieldMove.result (move : BitfieldMove) (bits : Nat) (dst src : BitVec 64)
    (immr imms : Nat) : Option (BitVec 64) :=
  match move with
  | .ubfm => ubfmResult bits src immr imms
  | .sbfm => sbfmResult bits src immr imms
  | .bfm => bfmResult bits dst src immr imms

theorem BitfieldMove.result_eq (move : BitfieldMove) {bits : Nat} (hbits : bits ≤ 64)
    (dst src : BitVec 64) {immr imms : Nat} (hr : immr < bits) (hs : imms < bits) :
    if move ≠ .bfm ∧ imms - immr = 63 then move.result bits dst src immr imms = none
    else ∃ result, move.result bits dst src immr imms = some result ∧ result.setWidth bits =
        bitfieldMove move (dst.setWidth bits) (src.setWidth bits) immr imms := by
  split
  next hfull =>
    obtain ⟨hmove, hfield⟩ := hfull
    have hle : immr ≤ imms := by omega
    have hones : ones 64 = none := rfl
    cases move with
    | bfm => exact absurd rfl hmove
    | ubfm => simp [result, ubfmResult, hle, hfield, addU32, hones]
    | sbfm => simp [result, sbfmResult, hle, hfield, addU32, hones]
  next hfull =>
    cases move with
    | bfm => exact bfmResult_eq dst src hr hbits hs
    | ubfm => exact ubfmResult_eq dst src hr hbits hs (by simp at hfull; omega)
    | sbfm => exact sbfmResult_eq dst src hr hbits hs (by simp at hfull; omega)

section Execute

variable (move : BitfieldMove) (s : RegFile) (sz : SizeCode) (rd rn : Fin 32)
  (immr imms : BitVec 32)

def bitfieldInstruction : Instruction :=
  .of (.register sz rd) (.register sz rn) (.immediate immr) (.immediate imms)

theorem toNat_setWidth_immediate (v : BitVec 32) :
    ((v.setWidth 64).setWidth 32).toNat = v.toNat := by
  rw [setWidth_setWidth_of_le _ (by decide), setWidth_eq]

theorem BitfieldMove.execute_eq : move.execute s (bitfieldInstruction sz rd rn immr imms) =
    (move.result sz.bits (s.readReg (.register sz rd)) (s.readReg (.register sz rn)) immr.toNat
      imms.toNat).map fun result => (s.writeReg (.register sz rd) result, true) := by
  have hbits : (if is64 sz then 64 else 32) = sz.bits := by cases sz <;> rfl
  -- the mask of a 32-bit result is part of the write to a 32-bit register
  have hmasked (r : Option (BitVec 64)) : (r.bind fun result => some (s.writeReg (.register sz rd)
      (if is64 sz then result else result &&& 0xffffffff), true)) =
      r.map fun result => (s.writeReg (.register sz rd) result, true) := by
    simp only [RegFile.writeReg_ite_is64]
    exact Option.map_eq_bind.symm
  rw [← toNat_setWidth_immediate immr, ← toNat_setWidth_immediate imms, ← hbits]
  cases move with
  | ubfm => exact hmasked _
  | sbfm => exact hmasked _
  | bfm => exact Option.map_eq_bind.symm

end Execute

/-- `UBFM`, `SBFM` and `BFM` move the field into the destination and clear its upper half in the
32-bit form, but for the field of all 64 bits, whose mask needs a shift by the full width. -/
theorem bitfield_execute_iff (move : BitfieldMove) (s : RegFile) (sz : SizeCode) (rd rn : Fin 32)
    (immr imms : BitVec 32) (hr : immr.toNat < sz.bits) (hs : imms.toNat < sz.bits) :
    (∃ s', move.execute s (bitfieldInstruction sz rd rn immr imms) = some (s', true) ∧
        s.Writes rd ((bitfieldMove move ((s.readReg (.register sz rd)).setWidth sz.bits)
          ((s.readReg (.register sz rn)).setWidth sz.bits) immr.toNat imms.toNat).setWidth 64) s' ∧
        s'.nzcv = s.nzcv) ↔ ¬(move ≠ .bfm ∧ sz = .x ∧ immr = 0 ∧ imms = 63) := by
  have hwhole : (sz = .x ∧ immr = 0 ∧ imms = 63) ↔ imms.toNat - immr.toNat = 63 := by
    have hzero : immr = 0 ↔ immr.toNat = 0 := toNat_inj.symm
    have hlast : imms = 63 ↔ imms.toNat = 63 := toNat_inj.symm
    rw [hzero, hlast]
    cases sz with
    | x =>
      have hbits : SizeCode.x.bits = 64 := rfl
      simp only [true_and]
      omega
    | w =>
      have hbits : SizeCode.w.bits = 32 := rfl
      simp only [reduceCtorEq, false_and, false_iff]
      omega
  have hresult := move.result_eq sz.bits_le (s.readReg (.register sz rd))
    (s.readReg (.register sz rn)) hr hs
  rw [move.execute_eq, hwhole]
  split at hresult
  next hfull =>
    rw [hresult]
    simp [hfull]
  next hfull =>
    obtain ⟨result, hsome, heq⟩ := hresult
    rw [hsome, Option.map_some, RegFile.writeReg, RegFile.truncate_eq, heq]
    exact iff_of_true ⟨_, rfl, s.writes_setX rd _, rfl⟩ hfull

/-- `UBFX w0, w1, #4, #8` of a register with the bits 32 and 33 set. -/
theorem bitfield_execute_ubfx : ∃ s', BitfieldMove.ubfm.execute (.constant 0x30000abcd)
      (bitfieldInstruction .w 0 1 4 11) = some (s', true) ∧ s'.x 0 = 0xbc ∧
        s'.x 1 = 0x30000abcd := by
  obtain ⟨s', hexec, hwrites, -⟩ := (bitfield_execute_iff .ubfm (.constant 0x30000abcd) .w 0 1 4 11
    (by decide) (by decide)).mpr (by decide)
  exact ⟨s', hexec, hwrites.x 0, hwrites.x 1⟩

/-- `LSR x0, x1, #0` is the field of all bits. -/
theorem ubfm_whole_word :
    BitfieldMove.ubfm.execute (.constant 1) (bitfieldInstruction .x 0 1 0 63) = none ∧
      bitfieldMove .ubfm 1#64 1#64 0 63 = 1#64 :=
  ⟨rfl, by decide⟩

end Mwemu.Aarch64
