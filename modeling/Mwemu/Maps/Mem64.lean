import Mathlib.Data.List.Basic

/-!
# Memory regions

A region of the address space with its name, its permissions and its bytes. Where a method can
panic, on a range outside the bytes, it returns an `Option` here.
-/

namespace Mwemu

structure Permission where
  read : Bool
  write : Bool
  execute : Bool
  deriving DecidableEq, Repr

structure Mem64 where
  memName : String
  baseAddr : Nat
  bottomAddr : Nat
  permission : Permission
  mem : List UInt8
  deriving DecidableEq, Repr

namespace Mem64

def default : Mem64 :=
  { memName := "", baseAddr := 0, bottomAddr := 0
    permission := { read := true, write := true, execute := false }, mem := [] }

variable (r : Mem64)

def canRead : Bool := r.permission.read
def canWrite : Bool := r.permission.write
def canExecute : Bool := r.permission.execute

def size : Nat := r.mem.length

def setName (name : String) : Mem64 :=
  { r with memName := name }

def setBase (base : Nat) : Mem64 :=
  { r with baseAddr := base, bottomAddr := base }

def setSize (size : Nat) : Mem64 :=
  { r with bottomAddr := r.baseAddr + size, mem := List.replicate size 0 }

def setPermission (permission : Permission) : Mem64 :=
  { r with permission := permission }

def inside (addr : Nat) : Bool :=
  decide (r.baseAddr ≤ addr) && decide (addr < r.bottomAddr)

def dropFront (n : Nat) : Option Mem64 :=
  if n ≤ r.mem.length then
    some { r with mem := r.mem.drop n, baseAddr := r.baseAddr + n }
  else none

def truncate (n : Nat) : Mem64 :=
  { r with mem := r.mem.take n, bottomAddr := r.baseAddr + n }

def splitOff (addr : Nat) : Option (Mem64 × List UInt8) :=
  if r.baseAddr ≤ addr ∧ addr - r.baseAddr ≤ r.mem.length then
    some ({ r with mem := r.mem.take (addr - r.baseAddr), bottomAddr := addr },
      r.mem.drop (addr - r.baseAddr))
  else none

def readBytes (addr sz : Nat) : List UInt8 :=
  if r.canRead then
    if r.baseAddr + r.mem.length ≤ addr then []
    else if addr < r.baseAddr then []
    else (r.mem.drop (addr - r.baseAddr)).take sz
  else []

def copyAt (bytes : List UInt8) (idx : Nat) (bs : List UInt8) : List UInt8 :=
  bytes.take idx ++ bs ++ bytes.drop (idx + bs.length)

def forceWriteBytes (addr : Nat) (bs : List UInt8) : Option Mem64 :=
  if r.baseAddr ≤ addr ∧ addr - r.baseAddr + bs.length ≤ r.mem.length then
    some { r with mem := copyAt r.mem (addr - r.baseAddr) bs }
  else none

theorem length_copyAt {bytes bs : List UInt8} {idx : Nat} (hfits : idx + bs.length ≤ bytes.length) :
    (copyAt bytes idx bs).length = bytes.length := by
  rw [copyAt, List.length_append, List.length_append, List.length_take, List.length_drop]
  omega

theorem forceWriteBytes_eq {r : Mem64} {addr : Nat} {bs : List UInt8} (hbase : r.baseAddr ≤ addr)
    (hfits : addr - r.baseAddr + bs.length ≤ r.size) :
    r.forceWriteBytes addr bs = some { r with mem := copyAt r.mem (addr - r.baseAddr) bs } :=
  if_pos ⟨hbase, hfits⟩

def writeBytes (addr : Nat) (bs : List UInt8) : Option Mem64 :=
  if r.canWrite then r.forceWriteBytes addr bs else some r

end Mem64

end Mwemu
