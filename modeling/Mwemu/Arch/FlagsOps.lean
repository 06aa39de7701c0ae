import Mwemu.Arch.Flags

/-!
# The helpers that set flags

Increments, negations, logic, shifts, rotates and multiplications. The functions of a family differ
in their width only, unless their bodies say otherwise; each keeps its own name. Operands are 64-bit
registers of which the low bits count.
-/

namespace Mwemu.Arch

def Width.ones : Width → BitVec 64
  | .byte => 0xff
  | .word => 0xffff
  | .dword => 0xffffffff
  | .qword => 0xffffffffffffffff

def Width.countMask : Width → BitVec 64
  | .qword => 0x3f
  | _ => 0x1f

def Width.count (w : Width) (value : BitVec 64) : Nat :=
  (value &&& w.countMask).toNat

namespace Flags

/-! ### Results and the lazy record -/

def signExtendResult (result : BitVec 64) : Width → BitVec 64
  | .qword => result
  | .dword => (result.setWidth 32).signExtend 64
  | .word => (result.setWidth 16).signExtend 64
  | .byte => (result.setWidth 8).signExtend 64

def encodedAux (cf of af : Bool) : BitVec 32 :=
  (if af then lfMaskAf else 0) ||| (if cf then lfMaskCf else 0) |||
    (if cf ^^ of then lfMaskPo else 0)

def setLazyFromEncodedFlags (f : Flags) (result : BitVec 64) (cf of af : Bool) (w : Width) :
    Flags :=
  f.storeOszapc (signExtendResult result w) (encodedAux cf of af)

def setLazyFromFlags (f : Flags) (result : BitVec 64) (cf of af : Bool) (w : Width) : Flags :=
  f.setLazyFromEncodedFlags result cf of af w

def setLazyLogic (f : Flags) (result : BitVec 64) : Width → Flags
  | .qword => f.setLazyOszapc64 result 0
  | .dword => f.setLazyOszapc32 (result.setWidth 32) 0
  | .word => f.setLazyOszapc16 (result.setWidth 16) 0
  | .byte => f.setLazyOszapc8 (result.setWidth 8) 0

def calcPfValue (finalValue : BitVec 8) : Bool :=
  (List.range 8).countP (fun i => finalValue.getLsbD i) % 2 == 0

def calcAfValue (value1 value2 result : BitVec 64) : Bool :=
  (value1 ^^^ value2 ^^^ result) &&& 0x10 != 0

/-- Takes CF, OF and AF from the fields; the one of AF is stale while the lazy record is in use. -/
def calcFlags (f : Flags) (finalValue : BitVec 64) (w : Width) : Flags :=
  { f with fTf := false }.setLazyFromFlags finalValue f.fCf f.fOf f.fAf w

def calcLogicFlagsLazy (f : Flags) (finalValue : BitVec 64) (w : Width) : Flags :=
  { f with fTf := false, fCf := false, fAf := false, fOf := false }.setLazyLogic finalValue w

def calcPf (f : Flags) (finalValue : BitVec 8) : Flags :=
  { f.materializeLazy with fPf := calcPfValue finalValue }

def calcAf (f : Flags) (value1 value2 result : BitVec 64) : Flags :=
  { f.materializeLazy with fAf := calcAfValue value1 value2 result }

/-! ### The flags register -/

def bitAt (flag : Bool) (i : Nat) : BitVec 32 :=
  if flag then 1#32 <<< i else 0

def dump (f : Flags) : BitVec 32 :=
  let f := f.materializeLazy
  bitAt f.fCf 0 ||| bitAt true 1 ||| bitAt f.fPf 2 ||| bitAt f.fAf 4 ||| bitAt f.fZf 6 |||
    bitAt f.fSf 7 ||| bitAt f.fTf 8 ||| bitAt f.fIf 9 ||| bitAt f.fDf 10 ||| bitAt f.fOf 11 |||
    bitAt f.fIopl1 12 ||| bitAt f.fIopl2 13 ||| bitAt f.fNt 14 ||| bitAt f.fRf 16 |||
    bitAt f.fVm 17 ||| bitAt f.fAc 18 ||| bitAt f.fVif 19 ||| bitAt f.fVip 20 ||| bitAt f.fId 21

def load (_f : Flags) (flags : BitVec 32) : Flags :=
  { fCf := flags.getLsbD 0, fPf := flags.getLsbD 2, fAf := flags.getLsbD 4,
    fZf := flags.getLsbD 6, fSf := flags.getLsbD 7, fTf := flags.getLsbD 8,
    fIf := flags.getLsbD 9, fDf := flags.getLsbD 10, fOf := flags.getLsbD 11,
    fIopl1 := flags.getLsbD 12, fIopl2 := flags.getLsbD 13, fNt := flags.getLsbD 14,
    fRf := flags.getLsbD 16, fVm := flags.getLsbD 17, fAc := flags.getLsbD 18,
    fVif := flags.getLsbD 19, fVip := flags.getLsbD 20, fId := flags.getLsbD 21,
    lazy := LazyFlags.default }

/-! ### Increment, decrement and negation -/

def setStep (f : Flags) (w : Width) (result : BitVec 64) (af of : Bool) : Flags :=
  { f with
    lazy := { f.lazy with kind := .none }
    fCf := f.cf
    fAf := af
    fOf := of
    fZf := result == 0
    fSf := (result.setWidth w.bits).msb
    fPf := calcPfValue (result.setWidth 8) }

def incWidth (w : Width) (f : Flags) (value : BitVec 64) : BitVec 64 × Flags :=
  let value := value &&& w.ones
  let result := (value + 1) &&& w.ones
  (result, f.setStep w result (value &&& 0xf == 0xf) (value == w.ones >>> 1))

def inc64 (f : Flags) (value : BitVec 64) : BitVec 64 × Flags := incWidth .qword f value
def inc32 (f : Flags) (value : BitVec 64) : BitVec 64 × Flags := incWidth .dword f value
def inc16 (f : Flags) (value : BitVec 64) : BitVec 64 × Flags := incWidth .word f value
def inc8 (f : Flags) (value : BitVec 64) : BitVec 64 × Flags := incWidth .byte f value

def decWidth (w : Width) (f : Flags) (value : BitVec 64) : BitVec 64 × Flags :=
  let value := value &&& w.ones
  let result := (value - 1) &&& w.ones
  (result, f.setStep w result (value &&& 0xf == 0) (value == (w.ones >>> 1) + 1))

def dec64 (f : Flags) (value : BitVec 64) : BitVec 64 × Flags := decWidth .qword f value
def dec32 (f : Flags) (value : BitVec 64) : BitVec 64 × Flags := decWidth .dword f value
def dec16 (f : Flags) (value : BitVec 64) : BitVec 64 × Flags := decWidth .word f value
def dec8 (f : Flags) (value : BitVec 64) : BitVec 64 × Flags := decWidth .byte f value

def negWidth (w : Width) (f : Flags) (value : BitVec 64) : BitVec 64 × Flags :=
  let f := { f with
    fOf := value == (w.ones >>> 1) + 1
    fCf := value &&& w.ones != 0
    fAf := value &&& 0x0f != 0 }
  let ival := value.setWidth w.bits
  let ival := if ival = BitVec.intMin w.bits then ival else -ival
  let res := ival.setWidth 64
  (res, (f.calcFlags res w).calcPf (res.setWidth 8))

def neg64 (f : Flags) (value : BitVec 64) : BitVec 64 × Flags := negWidth .qword f value
def neg32 (f : Flags) (value : BitVec 64) : BitVec 64 × Flags := negWidth .dword f value
def neg16 (f : Flags) (value : BitVec 64) : BitVec 64 × Flags := negWidth .word f value
def neg8 (f : Flags) (value : BitVec 64) : BitVec 64 × Flags := negWidth .byte f value

def test (f : Flags) (value0 value1 : BitVec 64) (w : Width) : Flags :=
  f.calcLogicFlagsLazy (value0 &&& value1) w

/-! ### Shifts -/

def lowBit (value : BitVec 64) : Bool :=
  value &&& 1 == 1

def shl2p (w : Width) (f : Flags) (value0 value1 : BitVec 64) : BitVec 64 × Flags :=
  let count := w.count value1
  if count = 0 then (value0 &&& w.ones, f)
  else
    let result := (value0 <<< count) &&& w.ones
    let f := { f with
      fCf := if count ≤ w.bits then lowBit (value0 >>> (w.bits - count)) else false
      fOf := if count = 1 then
          (result >>> (w.bits - 1)) &&& 1 != (value0 >>> (w.bits - 1)) &&& 1
        else false }
    (result, f.calcFlags result w)

def shl2p64 (f : Flags) : BitVec 64 → BitVec 64 → BitVec 64 × Flags := shl2p .qword f
def shl2p32 (f : Flags) : BitVec 64 → BitVec 64 → BitVec 64 × Flags := shl2p .dword f
def shl2p16 (f : Flags) : BitVec 64 → BitVec 64 → BitVec 64 × Flags := shl2p .word f
def shl2p8 (f : Flags) : BitVec 64 → BitVec 64 → BitVec 64 × Flags := shl2p .byte f

/-- The forms `shl1p` are the two-operand forms with a count of one, and `sal` is `shl`. -/
def shl1p (w : Width) (f : Flags) (value : BitVec 64) : BitVec 64 × Flags := shl2p w f value 1
def sal2p (w : Width) (f : Flags) (value0 value1 : BitVec 64) : BitVec 64 × Flags :=
  shl2p w f value0 value1
def sal1p (w : Width) (f : Flags) (value : BitVec 64) : BitVec 64 × Flags := shl1p w f value

def shr2p (w : Width) (f : Flags) (value0 value1 : BitVec 64) : BitVec 64 × Flags :=
  let count := w.count value1
  if count = 0 then (value0 &&& w.ones, f)
  else
    let result := (value0 >>> count) &&& w.ones
    let f := { f with
      fCf := if count ≤ w.bits then lowBit (value0 >>> (count - 1)) else false
      fOf := if count = 1 then lowBit (value0 >>> (w.bits - 1)) else false }
    (result, f.calcFlags result w)

def shr2p64 (f : Flags) : BitVec 64 → BitVec 64 → BitVec 64 × Flags := shr2p .qword f
def shr2p32 (f : Flags) : BitVec 64 → BitVec 64 → BitVec 64 × Flags := shr2p .dword f
def shr2p16 (f : Flags) : BitVec 64 → BitVec 64 → BitVec 64 × Flags := shr2p .word f
def shr2p8 (f : Flags) : BitVec 64 → BitVec 64 → BitVec 64 × Flags := shr2p .byte f
def shr1p (w : Width) (f : Flags) (value : BitVec 64) : BitVec 64 × Flags := shr2p w f value 1

/-- The arithmetic shift of an operand, filled up with its sign from the width on. -/
def sarResult (w : Width) (value0 : BitVec 64) (count : Nat) : BitVec 64 :=
  let s := value0.setWidth w.bits
  let sResult := if count < w.bits then s.sshiftRight count else if s.msb then -1 else 0
  sResult.setWidth 64

def sarWide (w : Width) (f : Flags) (value0 value1 : BitVec 64) : BitVec 64 × Flags :=
  let count := w.count value1
  if count = 0 then (value0, f)
  else
    let result := sarResult w value0 count
    let f := { f with
      fCf := if count ≤ w.bits then lowBit (value0 >>> (count - 1)) else false
      fOf := false }
    (result, f.calcFlags result w)

/-- The narrow forms: from the width on, the last bit that leaves is the sign. -/
def sarNarrow (w : Width) (f : Flags) (value0 value1 : BitVec 64) : BitVec 64 × Flags :=
  let count := w.count value1
  if count = 0 then (value0, f)
  else
    let result := sarResult w value0 count
    let f := { f with
      fCf := if count < w.bits then lowBit (value0 >>> (count - 1))
        else lowBit (value0 >>> (w.bits - 1))
      fOf := false }
    (result, f.calcFlags result w)

def sar2p64 (f : Flags) : BitVec 64 → BitVec 64 → BitVec 64 × Flags := sarWide .qword f
def sar2p32 (f : Flags) : BitVec 64 → BitVec 64 → BitVec 64 × Flags := sarWide .dword f
def sar2p16 (f : Flags) : BitVec 64 → BitVec 64 → BitVec 64 × Flags := sarNarrow .word f
def sar2p8 (f : Flags) : BitVec 64 → BitVec 64 → BitVec 64 × Flags := sarNarrow .byte f

def sar2p (w : Width) (f : Flags) (value0 value1 : BitVec 64) : BitVec 64 × Flags :=
  match w with
  | .byte => f.sar2p8 value0 value1
  | .word => f.sar2p16 value0 value1
  | .dword => f.sar2p32 value0 value1
  | .qword => f.sar2p64 value0 value1

def sar1p (w : Width) (f : Flags) (value : BitVec 64) : BitVec 64 × Flags := sar2p w f value 1

/-! ### Double shifts -/

def doubleCount (w : Width) (count : BitVec 64) : Nat :=
  min (w.count count) w.bits

def shrd (f : Flags) (value0 value1 count : BitVec 64) (w : Width) : BitVec 64 × Flags :=
  let count := doubleCount w count
  if count = 0 then (value0 &&& w.ones, f)
  else
    let res := ((value0 >>> count) ||| (value1 <<< (w.bits - count))) &&& w.ones
    let f := { f with
      fCf := lowBit (value0 >>> (count - 1))
      fOf := if count = 1 then
          (value0 >>> (w.bits - 1)) &&& 1 != (res >>> (w.bits - 1)) &&& 1
        else false }
    (res, f.calcFlags res w)

def shld (f : Flags) (value0 value1 count : BitVec 64) (w : Width) : BitVec 64 × Flags :=
  let count := doubleCount w count
  if count = 0 then (value0 &&& w.ones, f)
  else
    let res := ((value1 >>> (w.bits - count)) ||| (value0 <<< count)) &&& w.ones
    let cf := lowBit (value0 >>> (w.bits - count))
    let f := { f with
      fCf := cf
      fOf := if count = 1 then (res >>> (w.bits - 1)) &&& 1 != carryIn 64 cf else false }
    (res, f.calcFlags res w)

/-! ### Rotates -/

def ror (f : Flags) (value0 value1 : BitVec 64) (w : Width) : BitVec 64 × Flags :=
  let count := w.count value1
  if count = 0 then (value0 &&& w.ones, f)
  else
    let shift := count % w.bits
    let res := ((value0 >>> shift) ||| (value0 <<< (w.bits - shift))) &&& w.ones
    (res, { f with
      fCf := lowBit (res >>> (w.bits - 1))
      fOf := if shift = 1 then
          ((res >>> (w.bits - 1)) &&& 1) ^^^ ((res >>> (w.bits - 2)) &&& 1) == 1
        else false })

/-- The masked count decides whether flags change, its remainder how far the value rotates. -/
def rol (f : Flags) (value0 value1 : BitVec 64) (w : Width) : BitVec 64 × Flags :=
  let value0 := value0 &&& w.ones
  let masked := w.count value1
  let rot := masked % w.bits
  let res := if rot = 0 then value0
    else ((value0 <<< rot) ||| (value0 >>> (w.bits - rot))) &&& w.ones
  if masked = 0 then (res, f)
  else
    (res, { f with
      fCf := lowBit res
      fOf := if masked = 1 then ((res >>> (w.bits - 1)) &&& 1) ^^^ (res &&& 1) == 1 else f.fOf })

/-- Which amounts an integer of a given width may be shifted by. -/
abbrev ShiftCheck := Nat → Nat → Bool

def hostCheck : ShiftCheck := fun width amount => decide (amount < width)

section Checked

variable (check : ShiftCheck) {n : Nat}

def shlBy (x : BitVec n) (amount : Nat) : Option (BitVec n) :=
  if check n amount then some (x <<< amount) else none

def shrBy (x : BitVec n) (amount : Nat) : Option (BitVec n) :=
  if check n amount then some (x >>> amount) else none

def onesBy (w : Width) : Option (BitVec 64) :=
  if w = .qword then some 0xffffffffffffffff
  else (shlBy check 1#64 w.bits).map (· - 1)

def rcrBy (f : Flags) (value0 value1 : BitVec 64) (w : Width) : Option (BitVec 64 × Flags) := do
  let sz := w.bits
  let pow ← onesBy check w
  let count := w.count value1 % (sz + 1)
  let res ← match count with
    | 0 => some (value0 &&& pow)
    | 1 => do
        let low ← shrBy check value0 1
        let high ← shlBy check (carryIn 64 f.fCf) (sz - 1)
        some ((low ||| high) &&& pow)
    | count => do
        let low ← shrBy check value0 count
        let carry ← shlBy check (carryIn 64 f.fCf) (sz - count)
        let high ← shlBy check value0 (sz + 1 - count)
        some ((low ||| carry ||| high) &&& pow)
  let fCf ← if count = 0 then some f.fCf
    else (shrBy check value0 (count - 1)).map fun bit => bit &&& 1 != 0
  let fOf ← if count = 1 then do
      let double ← shlBy check res 1
      let top ← shrBy check (res ^^^ double) (sz - 1)
      some (top &&& 1 != 0)
    else some f.fOf
  some (res, { f with fCf := fCf, fOf := fOf })

def rclWord (f : Flags) (value0 pow : BitVec n) (count sz : Nat) :
    Option (BitVec n × Flags) := do
  let above ← shlBy check (value0 &&& pow) 1
  let extended := above ||| carryIn n f.fCf
  let left ← shlBy check extended count
  let right ← shrBy check extended (sz + 1 - count)
  let limit ← shlBy check 1#n (sz + 1)
  let rotated := (left ||| right) &&& (limit - 1)
  let shifted ← shrBy check rotated 1
  let res := shifted &&& pow
  let cf := rotated &&& 1 != 0
  let fOf ← if count = 1 then
      (shrBy check res (sz - 1)).map fun top => cf ^^ (top &&& 1 != 0)
    else some f.fOf
  some (res, { f with fCf := cf, fOf := fOf })

def rclBy (f : Flags) (value0 value1 : BitVec 64) (w : Width) : Option (BitVec 64 × Flags) := do
  let count := w.count value1 % (w.bits + 1)
  if count = 0 then do
    let pow ← onesBy check w
    some (value0 &&& pow, f)
  else if w = .qword then do
    let (res, f) ← rclWord check f (value0.setWidth 128) 0xffffffffffffffff count 64
    some (res.setWidth 64, f)
  else do
    let pow ← (shlBy check 1#64 w.bits).map (· - 1)
    rclWord check f value0 pow count w.bits

end Checked

/-! ### Multiplication -/

def setImulOverflow (f : Flags) (overflow : Bool) : Flags :=
  { f with fCf := overflow, fOf := overflow }

def imulP2 (w : Width) (f : Flags) (value0 value1 : BitVec 64) : BitVec 64 × Flags :=
  let full := (value0.setWidth w.bits).signExtend (2 * w.bits) *
    (value1.setWidth w.bits).signExtend (2 * w.bits)
  let res := full.setWidth w.bits
  (res.setWidth 64, f.setImulOverflow (full != res.signExtend (2 * w.bits)))

def imul64p2 (f : Flags) : BitVec 64 → BitVec 64 → BitVec 64 × Flags := imulP2 .qword f
def imul32p2 (f : Flags) : BitVec 64 → BitVec 64 → BitVec 64 × Flags := imulP2 .dword f
def imul16p2 (f : Flags) : BitVec 64 → BitVec 64 → BitVec 64 × Flags := imulP2 .word f
def imul8p2 (f : Flags) : BitVec 64 → BitVec 64 → BitVec 64 × Flags := imulP2 .byte f

end Flags

end Mwemu.Arch
