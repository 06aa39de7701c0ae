import Mwemu.Aarch64.Exclusive

/-!
# AArch64 registers and operands

The register file with its condition flags and vector registers, the operands of decoded
instructions, and the helpers by which the handlers read and write them. Shift amounts of operands
are below 64, as the decoder gives them.
-/

namespace Mwemu.Aarch64

instance neZero4 : NeZero 4 := ⟨by decide⟩

@[ext]
structure FlagsNZCV where
  n : Bool
  z : Bool
  c : Bool
  v : Bool
  deriving DecidableEq, Repr

structure RegFile extends RegsAarch64 where
  pc : BitVec 64
  nzcv : FlagsNZCV
  v : Fin 32 → BitVec 128

inductive ShiftStyle where
  | lsl
  | lsr
  | asr
  | ror
  | uxtb
  | uxth
  | uxtw
  | uxtx
  | sxtb
  | sxth
  | sxtw
  | sxtx
  deriving DecidableEq, Repr

inductive SimdSizeCode where
  | b
  | h
  | s
  | d
  | q
  deriving DecidableEq, Repr

inductive Operand where
  | nothing
  | register (sz : SizeCode) (n : Fin 32)
  | registerOrSP (sz : SizeCode) (n : Fin 32)
  | immediate (v : BitVec 32)
  | imm64 (v : BitVec 64)
  | imm16 (v : BitVec 16)
  | immShift (v : BitVec 16) (shift : Fin 64)
  | regShift (style : ShiftStyle) (amt : Fin 64) (sz : SizeCode) (reg : Fin 32)
  | simdRegister (sz : SimdSizeCode) (reg : Fin 32)
  | simdRegisterElements (sz : SimdSizeCode) (reg : Fin 32) (elemSz : SimdSizeCode)
  | conditionCode (cond : BitVec 8)
  | regPreIndex (reg : Fin 32) (offset : BitVec 32) (writeback : Bool)
  | regPostIndex (reg : Fin 32) (offset : BitVec 32)
  | regRegOffset (base index : Fin 32) (indexSize : SizeCode) (style : ShiftStyle) (amt : Fin 64)
  | pcOffset (offset : BitVec 64)
  deriving DecidableEq, Repr

structure Instruction where
  operands : Fin 4 → Operand

def Instruction.of (op₀ op₁ op₂ op₃ : Operand) : Instruction where
  operands
    | 0 => op₀
    | 1 => op₁
    | 2 => op₂
    | 3 => op₃

def is64 : SizeCode → Bool
  | .x => true
  | .w => false

def operandIs64 : Operand → Bool
  | .register sz _ | .registerOrSP sz _ => is64 sz
  | _ => true

def SizeCode.bits : SizeCode → Nat
  | .x => 64
  | .w => 32

def applyShift (val : BitVec 64) (style : ShiftStyle) (amt : Fin 64) : BitVec 64 :=
  match style with
  | .lsl => val <<< amt.val
  | .lsr => val >>> amt.val
  | .asr => val.sshiftRight amt
  | .ror => val.rotateRight amt
  | .uxtb => (val.setWidth 8).setWidth 64 <<< amt.val
  | .uxth => (val.setWidth 16).setWidth 64 <<< amt.val
  | .uxtw => (val.setWidth 32).setWidth 64 <<< amt.val
  | .uxtx => val <<< amt.val
  | .sxtb => (val.setWidth 8).signExtend 64 <<< amt.val
  | .sxth => (val.setWidth 16).signExtend 64 <<< amt.val
  | .sxtw => (val.setWidth 32).signExtend 64 <<< amt.val
  | .sxtx => val <<< amt.val

def applyShift32 (val : BitVec 32) (style : ShiftStyle) (amt : Fin 64) : BitVec 64 :=
  match style with
  | .lsl => (val <<< (amt.val % 32)).setWidth 64
  | .lsr => (val >>> (amt.val % 32)).setWidth 64
  | .asr => (val.sshiftRight (amt.val % 32)).setWidth 64
  | .ror => (val.rotateRight amt).setWidth 64
  | _ => applyShift (val.setWidth 64) style amt

namespace RegFile

variable (s : RegFile)

def getXOrSp (n : Fin 32) : BitVec 64 := s.toRegsAarch64.getXOrSp n

def setX (n : Fin 32) (val : BitVec 64) : RegFile :=
  { s with toRegsAarch64 := s.toRegsAarch64.setX n val }

def setXOrSp (n : Fin 32) (val : BitVec 64) : RegFile :=
  if n.val < 31 then s.setX n val else { s with sp := val }

def truncate (sz : SizeCode) (val : BitVec 64) : BitVec 64 :=
  if is64 sz then val else val &&& 0xffffffff

def readReg : Operand → BitVec 64
  | .register sz n => truncate sz (s.toRegsAarch64.getX n)
  | .registerOrSP sz n => truncate sz (s.getXOrSp n)
  | _ => 0

def writeReg (op : Operand) (val : BitVec 64) : RegFile :=
  match op with
  | .register sz n => s.setX n (truncate sz val)
  | .registerOrSP sz n => s.setXOrSp n (truncate sz val)
  | _ => s

def readOperandValue (op : Operand) : BitVec 64 :=
  match op with
  | .register .. | .registerOrSP .. => s.readReg op
  | .immediate v => v.setWidth 64
  | .imm64 v => v
  | .imm16 v => v.setWidth 64
  | .immShift v shift => v.setWidth 64 <<< shift.val
  | .regShift style amt sz reg =>
    let val := s.toRegsAarch64.getX reg
    if is64 sz then applyShift val style amt else applyShift32 (val.setWidth 32) style amt
  | .simdRegister _ reg | .simdRegisterElements _ reg _ => (s.v reg).setWidth 64
  | _ => 0

/-- The effective address of a memory operand, and what is written back to its base. -/
def resolveMemAddr (op : Operand) : BitVec 64 × Option (Fin 32 × BitVec 64) :=
  match op with
  | .regPreIndex reg offset writeback =>
    let addr := s.getXOrSp reg + offset.signExtend 64
    (addr, if writeback then some (reg, addr) else none)
  | .regPostIndex reg offset =>
    let base := s.getXOrSp reg
    (base, some (reg, base + offset.signExtend 64))
  | .regRegOffset base index indexSize style amt =>
    let index := truncate indexSize (s.toRegsAarch64.getX index)
    (s.getXOrSp base + applyShift index style amt, none)
  | .pcOffset offset => (s.pc + offset, none)
  | _ => (0, none)

def doWriteback (wb : Option (Fin 32 × BitVec 64)) : RegFile :=
  match wb with
  | some (reg, val) => s.setXOrSp reg val
  | none => s

end RegFile

def readImm : Operand → BitVec 64
  | .immediate v => v.setWidth 64
  | .imm64 v => v
  | .imm16 v => v.setWidth 64
  | _ => 0

theorem RegFile.truncate_eq (sz : SizeCode) (val : BitVec 64) :
    RegFile.truncate sz val = (val.setWidth sz.bits).setWidth 64 := by
  cases sz with
  | x => exact (BitVec.setWidth_eq _).symm
  | w =>
    apply BitVec.eq_of_toNat_eq
    have hmask : (0xffffffff : BitVec 64).toNat = 2 ^ 32 - 1 := rfl
    rw [truncate, if_neg (by decide), BitVec.toNat_and, hmask, Nat.and_two_pow_sub_one_eq_mod,
      BitVec.toNat_setWidth, BitVec.toNat_setWidth]
    exact (Nat.mod_eq_of_lt (Nat.lt_trans (Nat.mod_lt _ (by decide)) (by decide))).symm

section Written

variable (s : RegFile) (n : Fin 32) (val : BitVec 64)

/-- General register `n` of `s'` has `val`, and the other registers are those of `s`. Number 31 is
the zero register, which keeps nothing. -/
structure RegFile.Writes (s' : RegFile) : Prop where
  x : ∀ k : Fin 31, s'.x k = if n.val = k then val else s.x k
  sp : s'.sp = s.sp
  pc : s'.pc = s.pc
  v : s'.v = s.v

theorem RegFile.x_setX (k : Fin 31) : (s.setX n val).x k = if n.val = k then val else s.x k := by
  unfold setX RegsAarch64.setX
  by_cases hn : n.val < 31
  · rw [dif_pos hn]
    simp only [Function.update_apply, Fin.ext_iff, eq_comm]
  · rw [dif_neg hn, if_neg (by omega)]

theorem RegFile.sp_setX : (s.setX n val).sp = s.sp := by
  unfold setX RegsAarch64.setX
  split <;> rfl

theorem RegFile.writes_setX : s.Writes n val (s.setX n val) :=
  ⟨s.x_setX n val, s.sp_setX n val, rfl, rfl⟩

end Written

def RegFile.constant (val : BitVec 64) : RegFile where
  x _ := val
  sp := val
  pc := val
  nzcv := ⟨false, false, false, false⟩
  v _ := 0

end Mwemu.Aarch64
