import Mwemu.Aarch64.Exclusive
import Mwemu.Threading.GlobalLocks

/-!
# Threads and their serialised form

A thread has the state of its architecture and the fields that the scheduler reads. The serialised
form copies the architecture's state, with fixed-size arrays as vectors, but only some of the
scheduler's fields: what a thread waits for other than a critical section, its exit value and its
exclusive reservation are not in it and are absent after the conversion back.

The register files are opaque here: they are copied whole.
-/

namespace Mwemu.Serialization

open Mwemu.Threading Mwemu.Aarch64 Option

/-- The register types of the two architectures and the values of their `new`. -/
structure Isa where
  Regs64 : Type
  Flags : Type
  Eflags : Type
  FPUStack : Type
  RegsAarch64 : Type
  newRegs64 : Regs64
  newFlags : Flags
  newRegsAarch64 : RegsAarch64

variable {isa : Isa}

/-! ### The floating-point unit -/

/-- `try_into` from a vector to an array; its `unwrap` panics on another length. -/
def toArray {α : Type} (n : Nat) (xs : List α) : Option (Vector α n) :=
  if hn : xs.length = n then some ⟨xs.toArray, hn⟩ else none

theorem toArray_toList {α : Type} {n : Nat} (xs : Vector α n) : toArray n xs.toList = some xs := by
  rw [toArray, dif_pos (by simp), Option.some.injEq, ← Vector.toArray_inj]
  exact Array.toArray_toList

structure FPU (isa : Isa) where
  st : isa.FPUStack
  stDepth : UInt8
  status : UInt16
  tag : UInt16
  stat : UInt16
  ctrl : UInt16
  ip : UInt64
  errOff : UInt32
  errSel : UInt32
  codeSegment : UInt16
  dataSegment : UInt16
  operandPtr : UInt64
  reserved : Vector UInt8 14
  reserved2 : Vector UInt8 96
  xmm : Vector (BitVec 128) 16
  mxcsr : UInt32
  fpuControlWord : UInt16
  opcode : UInt16
  trace : Bool

structure SerializableFPU (isa : Isa) where
  st : isa.FPUStack
  status : UInt16
  stDepth : UInt8
  tag : UInt16
  stat : UInt16
  ctrl : UInt16
  ip : UInt64
  errOff : UInt32
  errSel : UInt32
  codeSegment : UInt16
  dataSegment : UInt16
  operandPtr : UInt64
  reserved : List UInt8
  reserved2 : List UInt8
  xmm : List (BitVec 128)
  mxcsr : UInt32
  fpuControlWord : UInt16
  opcode : UInt16
  trace : Bool

def FPU.serialize (fpu : FPU isa) : SerializableFPU isa where
  st := fpu.st
  status := fpu.status
  stDepth := fpu.stDepth
  tag := fpu.tag
  stat := fpu.stat
  ctrl := fpu.ctrl
  ip := fpu.ip
  errOff := fpu.errOff
  errSel := fpu.errSel
  codeSegment := fpu.codeSegment
  dataSegment := fpu.dataSegment
  operandPtr := fpu.operandPtr
  reserved := fpu.reserved.toList
  reserved2 := fpu.reserved2.toList
  xmm := fpu.xmm.toList
  mxcsr := fpu.mxcsr
  fpuControlWord := fpu.fpuControlWord
  opcode := fpu.opcode
  trace := fpu.trace

def SerializableFPU.restore (fpu : SerializableFPU isa) : Option (FPU isa) := do
  let reserved ← toArray 14 fpu.reserved
  let reserved2 ← toArray 96 fpu.reserved2
  let xmm ← toArray 16 fpu.xmm
  return {
    st := fpu.st
    status := fpu.status
    stDepth := fpu.stDepth
    tag := fpu.tag
    stat := fpu.stat
    ctrl := fpu.ctrl
    ip := fpu.ip
    errOff := fpu.errOff
    errSel := fpu.errSel
    codeSegment := fpu.codeSegment
    dataSegment := fpu.dataSegment
    operandPtr := fpu.operandPtr
    reserved := reserved
    reserved2 := reserved2
    xmm := xmm
    mxcsr := fpu.mxcsr
    fpuControlWord := fpu.fpuControlWord
    opcode := fpu.opcode
    trace := fpu.trace }

theorem FPU.restore_serialize (fpu : FPU isa) : fpu.serialize.restore = some fpu := by
  simp only [SerializableFPU.restore, FPU.serialize, toArray_toList, bind_eq_bind, bind_some]
  rfl

/-! ### The state of an architecture -/

structure X86TraceSnapshot (isa : Isa) where
  preRegs : isa.Regs64
  postRegs : isa.Regs64
  preFlags : isa.Flags
  postFlags : isa.Flags

def X86TraceSnapshot.new : X86TraceSnapshot isa :=
  ⟨isa.newRegs64, isa.newRegs64, isa.newFlags, isa.newFlags⟩

structure AArch64TraceSnapshot (isa : Isa) where
  preRegs : isa.RegsAarch64
  postRegs : isa.RegsAarch64

def AArch64TraceSnapshot.new : AArch64TraceSnapshot isa :=
  ⟨isa.newRegsAarch64, isa.newRegsAarch64⟩

/-- The x86 fields other than the trace, with the floating-point unit in either form. -/
structure X86State (isa : Isa) (fpu : Type) where
  regs : isa.Regs64
  flags : isa.Flags
  eflags : isa.Eflags
  fpu : fpu
  seh : UInt64
  veh : List UInt64
  uef : UInt64
  ehCtx : UInt64
  tls32 : List UInt32
  tls64 : List UInt64
  fls : List UInt64
  fs : List (UInt64 × UInt64)
  callStack : List (UInt64 × UInt64)

inductive ArchThreadState (isa : Isa) where
  | x86 (state : X86State isa (FPU isa)) (x86Trace : Option (X86TraceSnapshot isa))
  | aarch64 (regs : isa.RegsAarch64) (aarch64Trace : Option (AArch64TraceSnapshot isa))

/-- The trace is always there in the serialised form. -/
inductive SerializableThreadArch (isa : Isa) where
  | x86 (state : X86State isa (SerializableFPU isa)) (trace : X86TraceSnapshot isa)
  | aarch64 (regs : isa.RegsAarch64) (trace : AArch64TraceSnapshot isa)

namespace ArchThreadState

def serialize : ArchThreadState isa → SerializableThreadArch isa
  | x86 state trace => .x86 { state with fpu := state.fpu.serialize } (trace.getD .new)
  | aarch64 regs trace => .aarch64 regs (trace.getD .new)

def traced : ArchThreadState isa → ArchThreadState isa
  | x86 state trace => .x86 state (some (trace.getD .new))
  | aarch64 regs trace => .aarch64 regs (some (trace.getD .new))

/-- The same registers, flags and other fields of the architecture; the trace may differ. -/
def SameState : ArchThreadState isa → ArchThreadState isa → Prop
  | x86 state _, x86 state' _ => state = state'
  | aarch64 regs _, aarch64 regs' _ => regs = regs'
  | _, _ => False

theorem sameState_traced (arch : ArchThreadState isa) : SameState arch arch.traced := by
  cases arch <;> rfl

end ArchThreadState

def SerializableThreadArch.restore : SerializableThreadArch isa → Option (ArchThreadState isa)
  | x86 state trace => state.fpu.restore.map fun fpu => .x86 { state with fpu := fpu } (some trace)
  | aarch64 regs trace => some (.aarch64 regs (some trace))

theorem ArchThreadState.restore_serialize (arch : ArchThreadState isa) :
    arch.serialize.restore = some arch.traced := by
  cases arch with
  | x86 state trace =>
    rw [serialize, SerializableThreadArch.restore, FPU.restore_serialize]
    rfl
  | aarch64 regs trace => rfl

/-! ### Threads -/

structure ThreadContext (isa : Isa) where
  id : Tid
  suspended : Bool
  wakeTick : Nat
  blockedOnCs : Option UInt64
  clearChildTid : UInt64
  handle : UInt64
  arch : ArchThreadState isa
  exitValue : Option UInt64
  joining : Option (UInt64 × UInt64)
  blockedOnLock : Option UInt64
  condWait : Option (UInt64 × UInt64)
  exclusive : Option Reservation

structure SerializableThreadContext (isa : Isa) where
  id : Tid
  suspended : Bool
  wakeTick : Nat
  blockedOnCs : Option UInt64
  clearChildTid : UInt64
  handle : UInt64
  arch : SerializableThreadArch isa

namespace ThreadContext

def isRunnable (t : ThreadContext isa) (tick : Nat) : Bool :=
  !t.suspended && decide (t.wakeTick ≤ tick) && t.blockedOnCs.isNone && t.exitValue.isNone &&
    t.joining.isNone && t.blockedOnLock.isNone && t.condWait.isNone

def serialize (t : ThreadContext isa) : SerializableThreadContext isa where
  id := t.id
  suspended := t.suspended
  wakeTick := t.wakeTick
  blockedOnCs := t.blockedOnCs
  clearChildTid := t.clearChildTid
  handle := t.handle
  arch := t.arch.serialize

end ThreadContext

def SerializableThreadContext.restore (t : SerializableThreadContext isa) :
    Option (ThreadContext isa) :=
  t.arch.restore.map fun arch =>
    { id := t.id
      suspended := t.suspended
      wakeTick := t.wakeTick
      blockedOnCs := t.blockedOnCs
      clearChildTid := t.clearChildTid
      handle := t.handle
      exitValue := none
      joining := none
      blockedOnLock := none
      condWait := none
      exclusive := none
      arch := arch }

namespace ThreadContext

def restored (t : ThreadContext isa) : ThreadContext isa :=
  { t with
    arch := t.arch.traced
    exitValue := none
    joining := none
    blockedOnLock := none
    condWait := none
    exclusive := none }

theorem restore_serialize (t : ThreadContext isa) : t.serialize.restore = some t.restored := by
  rw [SerializableThreadContext.restore, serialize, ArchThreadState.restore_serialize]
  rfl

/-- The thread has exited, or waits for something other than a critical section. -/
def Parked (t : ThreadContext isa) : Prop :=
  t.exitValue.isSome ∨ t.joining.isSome ∨ t.blockedOnLock.isSome ∨ t.condWait.isSome

/-- A restored thread runs when the thread would, unless what parked it is lost and nothing else
holds it. -/
theorem isRunnable_restored_iff (t : ThreadContext isa) :
    (∀ tick, t.restored.isRunnable tick = t.isRunnable tick) ↔
      (t.Parked → t.suspended = true ∨ t.blockedOnCs.isSome = true) := by
  constructor
  · intro hsame hparked
    by_contra hfree
    rw [not_or, Bool.not_eq_true, Bool.not_eq_true, isSome_eq_false_iff] at hfree
    have hrestored : t.restored.isRunnable t.wakeTick = true := by
      simp [isRunnable, restored, hfree]
    rw [hsame, isRunnable] at hrestored
    simp only [Bool.and_eq_true, isNone_iff_eq_none] at hrestored
    simp [Parked, hrestored] at hparked
  intro hheld tick
  by_cases hparked : t.Parked
  · rcases hheld hparked with hsuspended | hblocked
    · simp [isRunnable, restored, hsuspended]
    · have hnone : t.blockedOnCs.isNone = false := by
        rwa [isNone_eq_false_iff]
      simp [isRunnable, restored, hnone]
  · simp only [Parked, not_or, not_isSome_iff_eq_none] at hparked
    simp only [isRunnable, restored, hparked, isNone_none]
    rfl

end ThreadContext

end Mwemu.Serialization
