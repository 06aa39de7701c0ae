import Mwemu.Aarch64.Exclusive

/-!
# Thread contexts

What the scheduler and the thread API of the emulated system know of a thread: its registers and
what it is waiting for. Ids, addresses and ticks are `u64` values.
-/

namespace Mwemu.Threading

open Mwemu.Aarch64

structure ThreadRegs extends RegsAarch64 where
  pc : BitVec 64

structure ThreadContext where
  id : Nat
  suspended : Bool
  wakeTick : Nat
  blockedOnCs : Option Nat
  regs : ThreadRegs
  exitValue : Option (BitVec 64)
  joining : Option (Nat × Nat)
  blockedOnLock : Option Nat
  condWait : Option (Nat × Nat)

namespace ThreadContext

def new (id : Nat) : ThreadContext where
  id := id
  suspended := false
  wakeTick := 0
  blockedOnCs := none
  regs := { x := fun _ => 0, sp := 0, pc := 0 }
  exitValue := none
  joining := none
  blockedOnLock := none
  condWait := none

def isRunnable (t : ThreadContext) (tick : Nat) : Bool :=
  !t.suspended && decide (t.wakeTick ≤ tick) && t.blockedOnCs.isNone && t.exitValue.isNone &&
    t.joining.isNone && t.blockedOnLock.isNone && t.condWait.isNone

def setRet (t : ThreadContext) (value : BitVec 64) : ThreadContext :=
  { t with regs := { t.regs with x := Function.update t.regs.x 0 value } }

theorem isRunnable_iff {t : ThreadContext} {tick : Nat} :
    t.isRunnable tick = true ↔ t.suspended = false ∧ t.wakeTick ≤ tick ∧ t.blockedOnCs = none ∧
      t.exitValue = none ∧ t.joining = none ∧ t.blockedOnLock = none ∧ t.condWait = none := by
  simp only [isRunnable, Bool.and_eq_true, Bool.not_eq_true', decide_eq_true_eq,
    Option.isNone_iff_eq_none, and_assoc]

end ThreadContext

end Mwemu.Threading
