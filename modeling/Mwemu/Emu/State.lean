import Mwemu.Arch.Flags
import Mwemu.Maps.Writes

/-!
# The emulator state of the x86 string instructions

The registers, the memory, the flags, the REP counter and the two position counters, with the
settings and observers that decide which path a REP instruction takes. Registers and counters are
64-bit words with wrapping arithmetic.
-/

namespace Mwemu

open Mwemu.Arch

def Arch.Width.bytes : Width → Nat
  | .byte => 1
  | .word => 2
  | .dword => 4
  | .qword => 8

theorem bytes_pos (width : Width) : 0 < width.bytes := by cases width <;> decide

theorem two_pow_bits (width : Width) : 2 ^ width.bits = 256 ^ width.bytes := by
  cases width <;> decide

/-! ### Registers -/

structure Regs64 where
  rax : BitVec 64
  rcx : BitVec 64
  rsi : BitVec 64
  rdi : BitVec 64
  rip : BitVec 64
  deriving DecidableEq, Repr

namespace Regs64

variable (regs : Regs64)

def getAl : BitVec 64 := regs.rax &&& 0xff
def getAx : BitVec 64 := regs.rax &&& 0xffff
def getEax : BitVec 64 := regs.rax &&& 0xffffffff
def getEsi : BitVec 64 := regs.rsi &&& 0xffffffff
def getEdi : BitVec 64 := regs.rdi &&& 0xffffffff
def getEip : BitVec 64 := regs.rip &&& 0xffffffff

def setAl (val : BitVec 64) : Regs64 :=
  { regs with rax := (regs.rax &&& 0xffffffffffffff00) + (val &&& 0xff) }

def setAx (val : BitVec 64) : Regs64 :=
  { regs with rax := (regs.rax &&& 0xffffffffffff0000) + (val &&& 0xffff) }

def setEax (val : BitVec 64) : Regs64 := { regs with rax := val &&& 0xffffffff }
def setEsi (val : BitVec 64) : Regs64 := { regs with rsi := val &&& 0xffffffff }
def setEdi (val : BitVec 64) : Regs64 := { regs with rdi := val &&& 0xffffffff }
def setEip (val : BitVec 64) : Regs64 := { regs with rip := val &&& 0xffffffff }

/-- The accumulator an element of the given width is compared with or stored from. -/
def acc : Width → BitVec 64
  | .byte => regs.getAl
  | .word => regs.getAx
  | .dword => regs.getEax
  | .qword => regs.rax

def setAcc (width : Width) (val : BitVec 64) : Regs64 :=
  match width with
  | .byte => regs.setAl val
  | .word => regs.setAx val
  | .dword => regs.setEax val
  | .qword => { regs with rax := val }

end Regs64

/-! ### Instructions -/

/-- The prefix bytes F3 and F2. The decoder reports F3 both as REP and as REPE. -/
inductive RepPrefix where
  | repe
  | repne
  deriving DecidableEq, Repr

inductive StringOp where
  | movs
  | stos
  | lods
  | cmps
  | scas
  deriving DecidableEq, Repr

inductive Mnemonic where
  | string (op : StringOp) (width : Width)
  | other
  deriving DecidableEq, Repr

inductive OpKind where
  | memorySegSI
  | memorySegESI
  | memorySegRSI
  | memoryESDI
  | memoryESEDI
  | memoryESRDI
  | other
  deriving DecidableEq, Repr

structure Instruction where
  mnemonic : Mnemonic
  repPrefix : Option RepPrefix
  opKinds : List OpKind
  deriving DecidableEq, Repr

namespace Instruction

variable (ins : Instruction)

def hasRepPrefix : Bool := ins.repPrefix == some .repe
def hasRepePrefix : Bool := ins.repPrefix == some .repe
def hasRepnePrefix : Bool := ins.repPrefix == some .repne

def prefixed : Bool := ins.hasRepPrefix || ins.hasRepePrefix || ins.hasRepnePrefix

/-- The scalar-double forms share the mnemonics MOVSD and CMPSD; only the string forms address
memory through `rsi` or `rdi`. -/
def hasStringOperand : Bool := ins.opKinds.any (· != .other)

def isRepStringInstruction : Bool :=
  ins.prefixed && ins.mnemonic != .other && ins.hasStringOperand

end Instruction

/-! ### The emulator -/

structure Cfg where
  isX64 : Bool
  verbose : Nat
  traceMem : Bool
  traceRegs : Bool
  traceReg : Bool
  traceFlags : Bool
  traceString : Bool
  inspect : Bool
  entropy : Bool
  exitPosition : BitVec 64
  deriving DecidableEq, Repr

/-- A memory-write hook maps the address, the size in bits and the value to the value that is
written. Of the other hooks only their presence is read. -/
structure Hooks where
  hookOnPreInstruction : Bool
  hookOnPostInstruction : Bool
  hookOnMemoryRead : Bool
  hookOnMemoryWrite : Option (Nat → Nat → Nat → Nat)

structure Breakpoints where
  memReadAddr : List (BitVec 64)
  memWriteAddr : List (BitVec 64)
  instruction : List (BitVec 64)
  deriving DecidableEq, Repr

structure Emu where
  cfg : Cfg
  hooks : Hooks
  bp : Breakpoints
  exp : BitVec 64
  maps : Maps
  regs : Regs64
  flags : Flags
  rep : Option (BitVec 64)
  pos : BitVec 64
  instructionCount : BitVec 64

namespace Emu

variable (e : Emu)

def callMemoryWriteHook (addr size value : Nat) : Nat :=
  match e.hooks.hookOnMemoryWrite with
  | some hook => hook addr size value
  | none => value

def advancePcX86 (size : Nat) : Emu :=
  if e.cfg.isX64 then
    { e with regs := { e.regs with rip := e.regs.rip + BitVec.ofNat 64 size } }
  else { e with regs := e.regs.setEip (e.regs.getEip + BitVec.ofNat 64 size) }

end Emu

end Mwemu
