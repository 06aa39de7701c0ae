import Mwemu.Lib.HostInt
import Mwemu.Lib.RoundRobin
import Mwemu.Macos.Emu

/-!
# Mutexes, condition variables and unfair locks

The state of a lock is in the guest's own lock object; a thread that has to wait is parked, and
whoever releases the lock completes the call of a parked thread and hands it the lock. Lock objects
lie in memory, so that the addresses of their fields do not overflow; the address of a time can.
A sum that overflows is a panic, `none`. The host's clock is an argument of `apiCondTimedwait`.
-/

namespace Mwemu.Macos

open Mwemu.Lib Mwemu.Threading

def sigErrorcheck : Nat := 0x32AAABA1
def sigRecursive : Nat := 0x32AAABA2

/-! Offsets of the fields of a mutex: the owner's id, the recursion depth, the type. -/

def ownerOffset : Nat := 8
def countOffset : Nat := 16
def kindOffset : Nat := 20

def normal : Nat := 0
def errorcheck : Nat := 1
def recursive : Nat := 2

def eperm : BitVec 64 := 1
def edeadlk : BitVec 64 := 11
def ebusy : BitVec 64 := 16
def etimedout : BitVec 64 := 60

namespace Emu

/-! ### Waiting threads -/

def firstBehind (e : Emu) (p : ThreadContext → Bool) : Option Nat :=
  nextTurn e.threads.length e.currentThreadId fun i => (e.threads[i]?).any p

def nextWaiter (e : Emu) (addr : Nat) : Option Nat :=
  e.firstBehind fun t => t.blockedOnLock = some addr

def condWaiter (e : Emu) (c : Nat) : Option Nat :=
  e.firstBehind fun t => t.condWait.any fun wait => wait.1 = c

def blockOnLock (e : Emu) (addr : Nat) : Emu :=
  e.modifyThread e.currentThreadId fun t => { t with blockedOnLock := some addr }

def wake (e : Emu) (idx : Nat) : Emu :=
  e.modifyThread idx fun t => { t with blockedOnLock := none }.setRet 0

/-! ### Mutexes -/

def mutexKind (e : Emu) (m : Nat) : Nat :=
  let sig := (e.maps.peek 8 m).getD 0 % 2 ^ 32
  if sig = sigRecursive then recursive
  else if sig = sigErrorcheck then errorcheck
  else (e.maps.peek 4 (m + kindOffset)).getD normal

def mutexOwner (e : Emu) (m : Nat) : Nat := (e.maps.peek 8 (m + ownerOffset)).getD 0

def mutexTake (e : Emu) (m tid : Nat) : Option Emu := do
  let e ← e.write 8 (m + ownerOffset) tid
  e.write 4 (m + countOffset) 1

def mutexRelease (e : Emu) (m : Nat) : Option Emu :=
  match e.nextWaiter m with
  | some idx => do
      let t ← e.threads[idx]?
      let e ← e.mutexTake m t.id
      return e.wake idx
  | none => do
      let e ← e.write 8 (m + ownerOffset) 0
      e.write 4 (m + countOffset) 0

def mutexRelock (e : Emu) (m : Nat) : Option Emu :=
  let count := (e.maps.peek 4 (m + countOffset)).getD 0
  if count + 1 < 2 ^ 32 then e.write 4 (m + countOffset) (count + 1) else none

def apiMutexLock (e : Emu) (m : Nat) : Option Emu :=
  let owner := e.mutexOwner m
  if owner = 0 then do
    let e ← e.mutexTake m e.currentTid
    return e.setRet 0
  else if owner = e.currentTid ∧ e.mutexKind m = recursive then do
    let e ← e.mutexRelock m
    return e.setRet 0
  else if owner = e.currentTid ∧ e.mutexKind m = errorcheck then some (e.setRet edeadlk)
  -- the owner of a normal mutex deadlocks
  else some (e.blockOnLock m)

def apiMutexTrylock (e : Emu) (m : Nat) : Option Emu :=
  let owner := e.mutexOwner m
  if owner = 0 then do
    let e ← e.mutexTake m e.currentTid
    return e.setRet 0
  else if owner = e.currentTid ∧ e.mutexKind m = recursive then do
    let e ← e.mutexRelock m
    return e.setRet 0
  else some (e.setRet ebusy)

def apiMutexUnlock (e : Emu) (m : Nat) : Option Emu :=
  if e.mutexOwner m ≠ e.currentTid ∧ e.mutexKind m ≠ normal then some (e.setRet eperm)
  else do
    let count := (e.maps.peek 4 (m + countOffset)).getD 1
    let e ← if 1 < count then e.write 4 (m + countOffset) (count - 1) else e.mutexRelease m
    return e.setRet 0

/-! ### Condition variables -/

def releaseForWait (e : Emu) (m : Nat) : Option (Emu × Bool) :=
  if e.mutexOwner m ≠ e.currentTid then some (e.setRet eperm, false)
  else (e.mutexRelease m).map fun e => (e, true)

def apiCondWait (e : Emu) (c m : Nat) : Option Emu := do
  let (e, released) ← e.releaseForWait m
  if released then
    return e.modifyThread e.currentThreadId fun t => { t with condWait := some (c, m) }
  else return e

def apiCondTimedwait (e : Emu) (m abstime now : Nat) : Option Emu := do
  let (e, released) ← e.releaseForWait m
  if released then
    let nanoseconds ← addU64 abstime 8
    let deadline := (e.maps.peek 8 abstime).getD 0 * 1000000000 +
      (e.maps.peek 8 nanoseconds).getD 0
    let ret := if deadline ≤ now then etimedout else 0
    if e.mutexOwner m = 0 then do
      let e ← e.mutexTake m e.currentTid
      return e.setRet ret
    else return e.blockOnLock m
  else return e

def resumeCondWaiter (e : Emu) (idx : Nat) : Option Emu := do
  let t ← e.threads[idx]?
  match t.condWait with
  | none => return e
  | some (_, m) =>
    let e := e.modifyThread idx fun t => { t with condWait := none }
    if e.mutexOwner m = 0 then do
      let e ← e.mutexTake m t.id
      return e.modifyThread idx fun t => t.setRet 0
    else return e.modifyThread idx fun t => { t with blockedOnLock := some m }

/-- The loop of `api_cond_wake`: each round takes one thread off the condition. -/
def condWakeLoop (c : Nat) (all : Bool) : Nat → Emu → Option Emu
  | 0, e => some e
  | fuel + 1, e =>
    match e.condWaiter c with
    | none => some e
    | some idx => do
        let e ← e.resumeCondWaiter idx
        if all then condWakeLoop c all fuel e else return e

def apiCondWake (e : Emu) (c : Nat) (all : Bool) : Option Emu := do
  let e ← condWakeLoop c all e.threads.length e
  return e.setRet 0

/-! ### Unfair locks -/

def unfairOwner (e : Emu) (lock : Nat) : Nat := (e.maps.peek 4 lock).getD 0

def apiUnfairLock (e : Emu) (lock : Nat) : Option Emu :=
  if e.unfairOwner lock = 0 then e.write 4 lock (e.currentTid % 2 ^ 32)
  else some (e.blockOnLock lock)

def apiUnfairTrylock (e : Emu) (lock : Nat) : Option Emu :=
  if e.unfairOwner lock = 0 then do
    let e ← e.write 4 lock (e.currentTid % 2 ^ 32)
    return e.setRet 1
  else some (e.setRet 0)

def apiUnfairUnlock (e : Emu) (lock : Nat) : Option Emu :=
  match e.nextWaiter lock with
  | some idx => do
      let t ← e.threads[idx]?
      let e ← e.write 4 lock (t.id % 2 ^ 32)
      return e.wake idx
  | none => e.write 4 lock 0

end Emu

/-! ### Calls -/

inductive SyncCall where
  | mutexLock (m : Nat)
  | mutexTrylock (m : Nat)
  | mutexUnlock (m : Nat)
  | condWait (c m : Nat)
  | condTimedwait (m abstime now : Nat)
  | condWake (c : Nat) (all : Bool)
  | unfairLock (lock : Nat)
  | unfairTrylock (lock : Nat)
  | unfairUnlock (lock : Nat)
  deriving DecidableEq, Repr

def SyncCall.exec (e : Emu) : SyncCall → Option Emu
  | .mutexLock m => e.apiMutexLock m
  | .mutexTrylock m => e.apiMutexTrylock m
  | .mutexUnlock m => e.apiMutexUnlock m
  | .condWait c m => e.apiCondWait c m
  | .condTimedwait m abstime now => e.apiCondTimedwait m abstime now
  | .condWake c all => e.apiCondWake c all
  | .unfairLock lock => e.apiUnfairLock lock
  | .unfairTrylock lock => e.apiUnfairTrylock lock
  | .unfairUnlock lock => e.apiUnfairUnlock lock

end Mwemu.Macos
