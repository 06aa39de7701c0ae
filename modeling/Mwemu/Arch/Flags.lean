import Mwemu.Lib.Carry

/-!
# The x86 flags

The emulator keeps the six arithmetic flags of the last operation partly unevaluated: the
sign-extended result and a word of carries, `auxbits`, from which PF and AF are read on demand. The
layout of `auxbits` is the same for every width, so one lemma about it serves all of them: bits 31
and 30 are the two topmost carries, bit 3 is the carry out of bit 3, and the bits that correct the
sign and the parity are zero.
-/

namespace Mwemu.Arch

open Mwemu.Lib

inductive LazyFlagsKind where
  | none
  | oszapc
  deriving DecidableEq, Repr

structure LazyFlags where
  kind : LazyFlagsKind
  result : BitVec 64
  auxbits : BitVec 32
  deriving DecidableEq, Repr

def LazyFlags.default : LazyFlags :=
  { kind := .none, result := 0, auxbits := 0 }

structure Flags where
  fCf : Bool
  fPf : Bool
  fAf : Bool
  fZf : Bool
  fSf : Bool
  fTf : Bool
  fIf : Bool
  fDf : Bool
  fOf : Bool
  fIopl1 : Bool
  fIopl2 : Bool
  fNt : Bool
  fRf : Bool
  fVm : Bool
  fAc : Bool
  fVif : Bool
  fVip : Bool
  fId : Bool
  lazy : LazyFlags
  deriving DecidableEq, Repr

inductive Width where
  | byte
  | word
  | dword
  | qword
  deriving DecidableEq, Repr

def Width.bits : Width → Nat
  | .byte => 8
  | .word => 16
  | .dword => 32
  | .qword => 64

def lfMaskSd : BitVec 32 := 1#32 <<< 0
def lfMaskAf : BitVec 32 := 1#32 <<< 3
def lfMaskPdb : BitVec 32 := 0xff#32 <<< 8
def lfMaskPo : BitVec 32 := 1#32 <<< 30
def lfMaskCf : BitVec 32 := 1#32 <<< 31

namespace Flags

def new : Flags :=
  { fCf := false, fPf := false, fAf := false, fZf := false, fSf := false, fTf := false,
    fIf := false, fDf := false, fOf := false, fIopl1 := false, fIopl2 := false, fNt := false,
    fRf := false, fVm := false, fAc := false, fVif := false, fVip := false, fId := false,
    lazy := LazyFlags.default }

def clearLazy (f : Flags) : Flags :=
  { f with lazy := LazyFlags.default }

def addCoutVec (op1 op2 result : BitVec 64) : BitVec 64 :=
  (op1 &&& op2) ||| ((op1 ||| op2) &&& ~~~result)

def subCoutVec (op1 op2 result : BitVec 64) : BitVec 64 :=
  (~~~op1 &&& op2) ||| ((~~~op1 ^^^ op2) &&& result)

def cacheOszapcFields (f : Flags) (result : BitVec 64) (auxbits : BitVec 32) : Flags :=
  { f with
    fCf := auxbits &&& lfMaskCf != 0
    fZf := result == 0
    fSf := ((result >>> 63).setWidth 32 ^^^ (auxbits >>> 0)) &&& 1 != 0
    fOf := ((auxbits + lfMaskPo) >>> 31) &&& 1 != 0 }

def storeOszapc (f : Flags) (result : BitVec 64) (auxbits : BitVec 32) : Flags :=
  { f.cacheOszapcFields result auxbits with
    lazy := { kind := .oszapc, result := result, auxbits := auxbits } }

def setLazyOszapc64 (f : Flags) (result carries : BitVec 64) : Flags :=
  f.storeOszapc result
    (((carries &&& lfMaskAf.setWidth 64) ||| ((carries >>> 62) <<< 30)).setWidth 32)

def setLazyOszapc32 (f : Flags) (result carries : BitVec 32) : Flags :=
  f.storeOszapc (result.signExtend 64) (carries &&& ~~~(lfMaskPdb ||| lfMaskSd))

def setLazyOszapc16 (f : Flags) (result : BitVec 16) (carries : BitVec 32) : Flags :=
  f.storeOszapc (result.signExtend 64) ((carries &&& lfMaskAf) ||| (carries <<< 16))

def setLazyOszapc8 (f : Flags) (result : BitVec 8) (carries : BitVec 32) : Flags :=
  f.storeOszapc (result.signExtend 64) ((carries &&& lfMaskAf) ||| (carries <<< 24))

def calcLazyPfValue (finalValue : BitVec 8) : Bool :=
  let temp := (finalValue ^^^ (finalValue >>> 4)) &&& 0x0f
  (0x9669#16 >>> temp) &&& 1 != 0

def cf (f : Flags) : Bool := f.fCf

def pf (f : Flags) : Bool :=
  match f.lazy.kind with
  | .none => f.fPf
  | .oszapc =>
    calcLazyPfValue
      (((f.lazy.result.setWidth 32 ^^^ (f.lazy.auxbits >>> 8)) &&& 0xff).setWidth 8)

def af (f : Flags) : Bool :=
  match f.lazy.kind with
  | .none => f.fAf
  | .oszapc => f.lazy.auxbits &&& lfMaskAf != 0

def zf (f : Flags) : Bool := f.fZf

def sf (f : Flags) : Bool := f.fSf

def of (f : Flags) : Bool := f.fOf

@[simp] theorem cf_eq (f : Flags) : f.cf = f.fCf := rfl
@[simp] theorem zf_eq (f : Flags) : f.zf = f.fZf := rfl
@[simp] theorem sf_eq (f : Flags) : f.sf = f.fSf := rfl
@[simp] theorem of_eq (f : Flags) : f.of = f.fOf := rfl

theorem storeOszapc_fCf (f : Flags) (result : BitVec 64) (auxbits : BitVec 32) :
    (f.storeOszapc result auxbits).fCf = (auxbits &&& lfMaskCf != 0) := rfl

theorem storeOszapc_fZf (f : Flags) (result : BitVec 64) (auxbits : BitVec 32) :
    (f.storeOszapc result auxbits).fZf = (result == 0) := rfl

theorem storeOszapc_fSf (f : Flags) (result : BitVec 64) (auxbits : BitVec 32) :
    (f.storeOszapc result auxbits).fSf =
      (((result >>> 63).setWidth 32 ^^^ (auxbits >>> 0)) &&& 1 != 0) := rfl

theorem storeOszapc_fOf (f : Flags) (result : BitVec 64) (auxbits : BitVec 32) :
    (f.storeOszapc result auxbits).fOf = (((auxbits + lfMaskPo) >>> 31) &&& 1 != 0) := rfl

def materializeLazy (f : Flags) : Flags :=
  match f.lazy.kind with
  | .none => f
  | .oszapc =>
    { f with fCf := f.cf, fPf := f.pf, fAf := f.af, fZf := f.zf, fSf := f.sf,
             fOf := f.of }.clearLazy

/-! ### Addition and subtraction -/

def carryIn (w : Nat) (c : Bool) : BitVec w := (BitVec.ofBool c).setWidth w

def add64 (f : Flags) (value1 value2 : BitVec 64) (cf includeCarry : Bool) : BitVec 64 × Flags :=
  let c := carryIn 64 (includeCarry && cf)
  let result := value1 + value2 + c
  (result, f.setLazyOszapc64 result (addCoutVec value1 value2 result))

def add32 (f : Flags) (value1 value2 : BitVec 32) (cf includeCarry : Bool) : BitVec 64 × Flags :=
  let c := carryIn 32 (includeCarry && cf)
  let result := value1 + value2 + c
  let carries := addCoutVec (value1.setWidth 64) (value2.setWidth 64) (result.setWidth 64)
  (result.setWidth 64, f.setLazyOszapc32 result (carries.setWidth 32))

def add16 (f : Flags) (value1 value2 : BitVec 16) (cf includeCarry : Bool) : BitVec 64 × Flags :=
  let c := carryIn 16 (includeCarry && cf)
  let result := value1 + value2 + c
  let carries := addCoutVec (value1.setWidth 64) (value2.setWidth 64) (result.setWidth 64)
  (result.setWidth 64, f.setLazyOszapc16 result (carries.setWidth 32))

def add8 (f : Flags) (value1 value2 : BitVec 8) (cf includeCarry : Bool) : BitVec 64 × Flags :=
  let c := carryIn 8 (includeCarry && cf)
  let result := value1 + value2 + c
  let carries := addCoutVec (value1.setWidth 64) (value2.setWidth 64) (result.setWidth 64)
  (result.setWidth 64, f.setLazyOszapc8 result (carries.setWidth 32))

def sub64Borrow (f : Flags) (value1 value2 : BitVec 64) (borrow : Bool) : BitVec 64 × Flags :=
  let result := value1 - value2 - carryIn 64 borrow
  (result, f.setLazyOszapc64 result (subCoutVec value1 value2 result))

def sub32Borrow (f : Flags) (value1 value2 : BitVec 64) (borrow : Bool) : BitVec 64 × Flags :=
  let value1 := value1.setWidth 32
  let value2 := value2.setWidth 32
  let result := value1 - value2 - carryIn 32 borrow
  let carries := subCoutVec (value1.setWidth 64) (value2.setWidth 64) (result.setWidth 64)
  (result.setWidth 64, f.setLazyOszapc32 result (carries.setWidth 32))

def sub16Borrow (f : Flags) (value1 value2 : BitVec 64) (borrow : Bool) : BitVec 64 × Flags :=
  let value1 := value1.setWidth 16
  let value2 := value2.setWidth 16
  let result := value1 - value2 - carryIn 16 borrow
  let carries := subCoutVec (value1.setWidth 64) (value2.setWidth 64) (result.setWidth 64)
  (result.setWidth 64, f.setLazyOszapc16 result (carries.setWidth 32))

def sub8Borrow (f : Flags) (value1 value2 : BitVec 64) (borrow : Bool) : BitVec 64 × Flags :=
  let value1 := value1.setWidth 8
  let value2 := value2.setWidth 8
  let result := value1 - value2 - carryIn 8 borrow
  let carries := subCoutVec (value1.setWidth 64) (value2.setWidth 64) (result.setWidth 64)
  (result.setWidth 64, f.setLazyOszapc8 result (carries.setWidth 32))

def sub64 (f : Flags) (value1 value2 : BitVec 64) : BitVec 64 × Flags :=
  let r := value1 - value2
  (r, f.setLazyOszapc64 r (subCoutVec value1 value2 r))

def sub32 (f : Flags) (value1 value2 : BitVec 64) : BitVec 64 × Flags :=
  let r := value1.setWidth 32 - value2.setWidth 32
  let value1 := value1.setWidth 32
  let value2 := value2.setWidth 32
  let carries := subCoutVec (value1.setWidth 64) (value2.setWidth 64) (r.setWidth 64)
  (r.setWidth 64, f.setLazyOszapc32 r (carries.setWidth 32))

def sub16 (f : Flags) (value1 value2 : BitVec 64) : BitVec 64 × Flags :=
  let r := value1.setWidth 16 - value2.setWidth 16
  let value1 := value1.setWidth 16
  let value2 := value2.setWidth 16
  let carries := subCoutVec (value1.setWidth 64) (value2.setWidth 64) (r.setWidth 64)
  (r.setWidth 64, f.setLazyOszapc16 r (carries.setWidth 32))

def sub8 (f : Flags) (value1 value2 : BitVec 64) : BitVec 64 × Flags :=
  let r := value1.setWidth 8 - value2.setWidth 8
  let value1 := value1.setWidth 8
  let value2 := value2.setWidth 8
  let carries := subCoutVec (value1.setWidth 64) (value2.setWidth 64) (r.setWidth 64)
  (r.setWidth 64, f.setLazyOszapc8 r (carries.setWidth 32))

/-- The family `add8`, `add16`, `add32`, `add64` on operands given as numbers. -/
def addWidth (width : Width) (f : Flags) (a b : Nat) (cf includeCarry : Bool) :
    BitVec 64 × Flags :=
  match width with
  | .byte => f.add8 (BitVec.ofNat 8 a) (BitVec.ofNat 8 b) cf includeCarry
  | .word => f.add16 (BitVec.ofNat 16 a) (BitVec.ofNat 16 b) cf includeCarry
  | .dword => f.add32 (BitVec.ofNat 32 a) (BitVec.ofNat 32 b) cf includeCarry
  | .qword => f.add64 (BitVec.ofNat 64 a) (BitVec.ofNat 64 b) cf includeCarry

/-- The family `sub8_borrow` to `sub64_borrow` on operands given as numbers. -/
def subBorrowWidth (width : Width) (f : Flags) (a b : Nat) (borrow : Bool) : BitVec 64 × Flags :=
  match width with
  | .byte => f.sub8Borrow (BitVec.ofNat 64 a) (BitVec.ofNat 64 b) borrow
  | .word => f.sub16Borrow (BitVec.ofNat 64 a) (BitVec.ofNat 64 b) borrow
  | .dword => f.sub32Borrow (BitVec.ofNat 64 a) (BitVec.ofNat 64 b) borrow
  | .qword => f.sub64Borrow (BitVec.ofNat 64 a) (BitVec.ofNat 64 b) borrow

def subWidth (width : Width) (f : Flags) (a b : Nat) : BitVec 64 × Flags :=
  match width with
  | .byte => f.sub8 (BitVec.ofNat 64 a) (BitVec.ofNat 64 b)
  | .word => f.sub16 (BitVec.ofNat 64 a) (BitVec.ofNat 64 b)
  | .dword => f.sub32 (BitVec.ofNat 64 a) (BitVec.ofNat 64 b)
  | .qword => f.sub64 (BitVec.ofNat 64 a) (BitVec.ofNat 64 b)

end Flags

end Mwemu.Arch
