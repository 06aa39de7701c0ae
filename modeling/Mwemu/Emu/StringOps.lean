import Mwemu.Emu.State

/-!
# The string instructions

One element of STOS, MOVS, SCAS, LODS and CMPS. The handlers of a family differ in the width and in
what they do when an access fails: some stop, some go on. A handler returns whether the instruction
succeeded; a panic is `none`. In 32-bit mode the byte, word and dword handlers address memory through
`edi` and `esi`; the qword handlers always use the full registers.
-/

namespace Mwemu

open Mwemu.Arch

namespace Emu

variable (e : Emu)

def wide (width : Width) : Bool := e.cfg.isX64 || width == .qword

def di (width : Width) : BitVec 64 := if e.wide width then e.regs.rdi else e.regs.getEdi
def si (width : Width) : BitVec 64 := if e.wide width then e.regs.rsi else e.regs.getEsi

def stepIndex (width : Width) (index : BitVec 64) : BitVec 64 :=
  if e.flags.fDf then index - BitVec.ofNat 64 width.bytes else index + BitVec.ofNat 64 width.bytes

def stepDi (width : Width) : Emu :=
  let next := e.stepIndex width (e.di width)
  { e with regs := if e.wide width then { e.regs with rdi := next } else e.regs.setEdi next }

def stepSi (width : Width) : Emu :=
  let next := e.stepIndex width (e.si width)
  { e with regs := if e.wide width then { e.regs with rsi := next } else e.regs.setEsi next }

def read (width : Width) (addr : BitVec 64) : Option Nat × Emu :=
  let (value, maps) := e.maps.readScalar width.bytes addr.toNat
  (value, { e with maps := maps })

def write (width : Width) (addr : BitVec 64) (value : Nat) : Option (Bool × Emu) :=
  let value := e.callMemoryWriteHook addr.toNat width.bits value
  (e.maps.writeScalar width.bytes addr.toNat value).map fun out =>
    (out.1, { e with maps := out.2 })

/-! ### STOS -/

def stos (width : Width) (checked : Bool) : Option (Bool × Emu) := do
  let (ok, e) ← e.write width (e.di width) (e.regs.acc width).toNat
  if checked && !ok then some (false, e) else some (true, e.stepDi width)

def stosb : Option (Bool × Emu) := e.stos .byte true
def stosw : Option (Bool × Emu) := e.stos .word false
def stosd : Option (Bool × Emu) := e.stos .dword true
def stosq : Option (Bool × Emu) := e.stos .qword false

/-! ### MOVS -/

/-- A MOVS handler of more than a byte: it stops when the read fails and ignores a failed write. -/
def movs (width : Width) : Option (Bool × Emu) :=
  match e.read width (e.si width) with
  | (none, e) => some (false, e)
  | (some value, e) => do
      let (_, e) ← e.write width (e.di width) value
      some (true, (e.stepSi width).stepDi width)

def copyByte (value : Nat) : Option (Bool × Emu) := do
  let (ok, e) ← e.write .byte (e.di .byte) value
  if ok then some (true, (e.stepSi .byte).stepDi .byte) else some (false, e)

def movsb : Option (Bool × Emu) :=
  match e.read .byte (e.si .byte) with
  | (none, e) => if e.rep.isSome then e.copyByte 0 else some (false, e)
  | (some value, e) => e.copyByte value

def movsw : Option (Bool × Emu) := e.movs .word
def movsd : Option (Bool × Emu) := e.movs .dword

def movsq : Option (Bool × Emu) := { e with pos := e.pos + 1 }.movs .qword

/-! ### SCAS -/

def scas (width : Width) (addr : BitVec 64) : Bool × Emu :=
  match e.read width addr with
  | (none, e) => (false, e)
  | (some value, e) =>
    let e := { e with flags := (e.flags.subWidth width (e.regs.acc width).toNat value).2 }
    (true, e.stepDi width)

def scasb : Bool × Emu := e.scas .byte e.regs.rdi
def scasw : Bool × Emu := e.scas .word (e.di .word)
def scasd : Bool × Emu := e.scas .dword (e.di .dword)

/-- In 32-bit mode the read is at `edi`, but `rdi` advances as a 64-bit register. -/
def scasq : Bool × Emu :=
  e.scas .qword (if e.cfg.isX64 then e.regs.rdi else e.regs.getEdi)

/-! ### LODS -/

def load (width : Width) (value : Nat) : Emu :=
  { e with regs := e.regs.setAcc width (BitVec.ofNat 64 value) }.stepSi width

def lods (width : Width) : Bool × Emu :=
  match e.read width (e.si width) with
  | (none, e) => (false, e)
  | (some value, e) => (true, e.load width value)

/-- After a failed read the console opens and the handler goes on with zero. -/
def lodsb : Bool × Emu :=
  match e.read .byte (e.si .byte) with
  | (none, e) => (true, e.load .byte 0)
  | (some value, e) => (true, e.load .byte value)

def lodsw : Bool × Emu := e.lods .word
def lodsd : Bool × Emu := e.lods .dword
def lodsq : Bool × Emu := if e.cfg.isX64 then e.lods .qword else (false, e)

/-! ### CMPS -/

def cmps (width : Width) : Bool × Emu :=
  match e.read width (e.si width) with
  | (none, e) => (false, e)
  | (some value0, e) =>
    match e.read width (e.di width) with
    | (none, e) => (false, e)
    | (some value1, e) =>
      let e := (e.stepSi width).stepDi width
      (true, { e with flags := (e.flags.subWidth width value0 value1).2 })

def cmpsb : Bool × Emu := e.cmps .byte
def cmpsw : Bool × Emu := e.cmps .word
def cmpsd : Bool × Emu := e.cmps .dword
def cmpsq : Bool × Emu := e.cmps .qword

/-- The dispatch, for the string forms; no other instruction is part of the model. -/
def emulateInstruction (ins : Instruction) : Option (Bool × Emu) :=
  if ins.hasStringOperand then
    match ins.mnemonic with
    | .string .stos .byte => e.stosb
    | .string .stos .word => e.stosw
    | .string .stos .dword => e.stosd
    | .string .stos .qword => e.stosq
    | .string .movs .byte => e.movsb
    | .string .movs .word => e.movsw
    | .string .movs .dword => e.movsd
    | .string .movs .qword => e.movsq
    | .string .scas .byte => some e.scasb
    | .string .scas .word => some e.scasw
    | .string .scas .dword => some e.scasd
    | .string .scas .qword => some e.scasq
    | .string .lods .byte => some e.lodsb
    | .string .lods .word => some e.lodsw
    | .string .lods .dword => some e.lodsd
    | .string .lods .qword => some e.lodsq
    | .string .cmps .byte => some e.cmpsb
    | .string .cmps .word => some e.cmpsw
    | .string .cmps .dword => some e.cmpsd
    | .string .cmps .qword => some e.cmpsq
    | .other => none
  else none

end Emu

end Mwemu
