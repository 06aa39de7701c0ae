import Mwemu.Emu.State
import Mwemu.Maps.Bytes

/-!
# AArch64 exclusive and atomic accesses

The handlers of the exclusive loads and stores, the plain stores and the LSE atomics, for any number
of threads over one memory. A thread's reservation holds what its last exclusive load saw, and a
store-exclusive succeeds if memory still holds it. A handler that returns `false`, which ends the
emulation, or that panics is `none`.
-/

namespace Mwemu.Aarch64

open Mwemu.Lib Mwemu.Arch

/-! ### Registers and operands -/

instance neZero31 : NeZero 31 := ⟨by decide⟩
instance neZero32 : NeZero 32 := ⟨by decide⟩

inductive SizeCode where
  | w
  | x
  deriving DecidableEq, Repr

/-- A register operand; number 31 is the zero register. -/
structure Reg where
  sz : SizeCode
  n : Fin 32
  deriving DecidableEq, Repr

/-- A base register, with 31 for the stack pointer, and an offset. -/
structure MemOperand where
  reg : Fin 32
  offset : BitVec 64
  deriving DecidableEq, Repr

structure RegsAarch64 where
  x : Fin 31 → BitVec 64
  sp : BitVec 64

namespace RegsAarch64

def getX (regs : RegsAarch64) (n : Fin 32) : BitVec 64 :=
  if hn : n.val < 31 then regs.x ⟨n, hn⟩ else 0

def setX (regs : RegsAarch64) (n : Fin 32) (val : BitVec 64) : RegsAarch64 :=
  if hn : n.val < 31 then { regs with x := Function.update regs.x ⟨n, hn⟩ val } else regs

def getXOrSp (regs : RegsAarch64) (n : Fin 32) : BitVec 64 :=
  if hn : n.val < 31 then regs.x ⟨n, hn⟩ else regs.sp

def readReg (regs : RegsAarch64) (op : Reg) : BitVec 64 :=
  match op.sz with
  | .x => regs.getX op.n
  | .w => regs.getX op.n &&& 0xffffffff

def writeReg (regs : RegsAarch64) (op : Reg) (val : BitVec 64) : RegsAarch64 :=
  match op.sz with
  | .x => regs.setX op.n val
  | .w => regs.setX op.n (val &&& 0xffffffff)

def resolveMemAddr (regs : RegsAarch64) (op : MemOperand) : BitVec 64 :=
  regs.getXOrSp op.reg + op.offset

end RegsAarch64

def Reg.bytes (op : Reg) : Width :=
  match op.sz with
  | .x => .qword
  | .w => .dword

def nextWord (addr : BitVec 64) (bytes : Width) : BitVec 64 :=
  addr + BitVec.ofNat 64 bytes.bytes

/-! ### The machine -/

structure Reservation where
  addr : BitVec 64
  bytes : Width
  values : BitVec 64 × BitVec 64
  deriving DecidableEq, Repr

structure Thread where
  regs : RegsAarch64
  exclusive : Option Reservation

/-- Threads that share a memory whose store is well formed. -/
structure Machine (n : Nat) where
  maps : Maps
  wf : maps.Wf
  threads : Fin n → Thread

variable {n : Nat}

namespace Machine

def setRegs (s : Machine n) (t : Fin n) (regs : RegsAarch64) : Machine n :=
  { s with threads := Function.update s.threads t { s.threads t with regs := regs } }

def setExclusive (s : Machine n) (t : Fin n) (exclusive : Option Reservation) : Machine n :=
  { s with threads := Function.update s.threads t { s.threads t with exclusive := exclusive } }

def readReg (s : Machine n) (t : Fin n) (op : Reg) : BitVec 64 :=
  (s.threads t).regs.readReg op

def writeReg (s : Machine n) (t : Fin n) (op : Reg) (val : BitVec 64) : Machine n :=
  s.setRegs t ((s.threads t).regs.writeReg op val)

def resolveMemAddr (s : Machine n) (t : Fin n) (op : MemOperand) : BitVec 64 :=
  (s.threads t).regs.resolveMemAddr op

def readMem (s : Machine n) (addr : BitVec 64) (bytes : Width) : Option (BitVec 64) × Machine n :=
  ((s.maps.readScalar bytes.bytes addr.toNat).1.map (BitVec.ofNat 64),
    { s with maps := (s.maps.readScalar bytes.bytes addr.toNat).2, wf := (s.wf.readScalar_stores _ _).wf })

def writeScalar (s : Machine n) (addr : BitVec 64) (bytes : Width) (val : BitVec 64) :
    Option (Bool × Machine n) :=
  match hwrite : s.maps.writeScalar bytes.bytes addr.toNat val.toNat with
  | some (ok, maps) => some (ok, { s with maps := maps, wf := (s.wf.writeScalar hwrite).1 })
  | none => none

def writeMem (s : Machine n) (addr : BitVec 64) (bytes : Width) (val : BitVec 64) :
    Option (Machine n) :=
  match s.writeScalar addr bytes val with
  | some (true, s) => some s
  | _ => none

/-! ### Exclusive loads and stores -/

inductive LoadOp where
  | ldxr
  | ldaxr
  | ldar
  | ldapr
  | ldlar
  deriving DecidableEq, Repr

def LoadOp.isExclusiveLoad : LoadOp → Bool
  | .ldxr | .ldaxr => true
  | .ldar | .ldapr | .ldlar => false

def load (s : Machine n) (t : Fin n) (op : LoadOp) (bytes : Option Width) (rt : Reg)
    (mem : MemOperand) : Option (BitVec 64 × Machine n) :=
  let bytes := bytes.getD rt.bytes
  let addr := s.resolveMemAddr t mem
  match s.readMem addr bytes with
  | (none, _) => none
  | (some val, s) =>
    let s := s.writeReg t rt val
    some (val, if op.isExclusiveLoad then s.setExclusive t (some ⟨addr, bytes, (val, 0)⟩) else s)

/-- Consume the reservation; true if it covers the address and memory has not changed. -/
def reservationHolds (s : Machine n) (t : Fin n) (addr : BitVec 64) (bytes : Width) (pair : Bool) :
    Bool × Machine n :=
  match (s.threads t).exclusive with
  | none => (false, s)
  | some r =>
    let s := s.setExclusive t none
    if r.addr ≠ addr ∨ r.bytes ≠ bytes then (false, s)
    else
      let (first, s) := s.readMem addr bytes
      if pair then
        let (second, s) := s.readMem (nextWord addr bytes) bytes
        (first == some r.values.1 && second == some r.values.2, s)
      else (first == some r.values.1, s)

def storeRelease (s : Machine n) (t : Fin n) (bytes : Option Width) (rt : Reg) (mem : MemOperand) :
    Option (Machine n) :=
  s.writeMem (s.resolveMemAddr t mem) (bytes.getD rt.bytes) (s.readReg t rt)

def store (s : Machine n) (t : Fin n) (bytes : Option Width) (ws rt : Reg) (mem : MemOperand) :
    Option (BitVec 64 × Machine n) :=
  let bytes := bytes.getD rt.bytes
  let val := s.readReg t rt
  let addr := s.resolveMemAddr t mem
  match s.reservationHolds t addr bytes false with
  | (false, s) => some (1, s.writeReg t ws 1)
  | (true, s) => (s.writeMem addr bytes val).map fun s => (0, s.writeReg t ws 0)

def loadPair (s : Machine n) (t : Fin n) (rt rt2 : Reg) (mem : MemOperand) :
    Option ((BitVec 64 × BitVec 64) × Machine n) :=
  let bytes := rt.bytes
  let addr := s.resolveMemAddr t mem
  match s.readMem addr bytes with
  | (first, s) =>
    match first, s.readMem (nextWord addr bytes) bytes with
    | some v1, (some v2, s) =>
      let s := (s.writeReg t rt v1).writeReg t rt2 v2
      some ((v1, v2), s.setExclusive t (some ⟨addr, bytes, (v1, v2)⟩))
    | _, _ => none

def storePair (s : Machine n) (t : Fin n) (ws rt rt2 : Reg) (mem : MemOperand) :
    Option (BitVec 64 × Machine n) :=
  let bytes := rt.bytes
  let v1 := s.readReg t rt
  let v2 := s.readReg t rt2
  let addr := s.resolveMemAddr t mem
  match s.reservationHolds t addr bytes true with
  | (false, s) => some (1, s.writeReg t ws 1)
  | (true, s) => do
      let s ← s.writeMem addr bytes v1
      let s ← s.writeMem (nextWord addr bytes) bytes v2
      some (0, s.writeReg t ws 0)

/-- The scalar writes of a plain store (`STR`, `STP` and their relatives); their outcome is
ignored. -/
def plainStore (s : Machine n) : List (BitVec 64 × Width × BitVec 64) → Option (Machine n)
  | [] => some s
  | (addr, bytes, val) :: writes =>
    (s.writeScalar addr bytes val).bind fun out => out.2.plainStore writes

/-! ### Atomics -/

inductive RmwOp where
  | add
  | clr
  | eor
  | set
  | smax
  | smin
  | umax
  | umin
  | swp
  deriving DecidableEq, Repr

def signExtend (val : BitVec 64) (bytes : Width) : BitVec 64 :=
  let shift := 64 - bytes.bytes * 8
  (val <<< shift).sshiftRight shift

def widthMask (bytes : Width) : BitVec 64 :=
  if 8 ≤ bytes.bytes then BitVec.allOnes 64 else (1 <<< (bytes.bytes * 8)) - 1

def combine (op : RmwOp) (old operand : BitVec 64) (bytes : Width) : BitVec 64 :=
  let so := signExtend old bytes
  let sv := signExtend operand bytes
  match op with
  | .add => old + operand
  | .clr => old &&& ~~~operand
  | .eor => old ^^^ operand
  | .set => old ||| operand
  | .smax => if so.slt sv then sv else so
  | .smin => if sv.slt so then sv else so
  | .umax => if old.ult operand then operand else old
  | .umin => if operand.ult old then operand else old
  | .swp => operand

def rmw (s : Machine n) (t : Fin n) (op : RmwOp) (bytes : Option Width) (rs rt : Reg)
    (mem : MemOperand) : Option (Machine n) :=
  let bytes := bytes.getD rs.bytes
  let mask := widthMask bytes
  let operand := s.readReg t rs &&& mask
  let addr := s.resolveMemAddr t mem
  match s.readMem addr bytes with
  | (none, _) => none
  | (some old, s) =>
    (s.writeMem addr bytes (combine op old operand bytes &&& mask)).map fun s =>
      s.writeReg t rt old

def cas (s : Machine n) (t : Fin n) (bytes : Option Width) (rs rt : Reg) (mem : MemOperand) :
    Option (Machine n) :=
  let bytes := bytes.getD rs.bytes
  let expected := s.readReg t rs &&& widthMask bytes
  let new := s.readReg t rt
  let addr := s.resolveMemAddr t mem
  match s.readMem addr bytes with
  | (none, _) => none
  | (some old, s) =>
    (if old = expected then s.writeMem addr bytes new else some s).map fun s =>
      s.writeReg t rs old

def casp (s : Machine n) (t : Fin n) (rs rt : Reg) (mem : MemOperand) : Option (Machine n) :=
  let second (r : Reg) : Reg := ⟨rs.sz, r.n + 1⟩
  let s0 : Reg := ⟨rs.sz, rs.n⟩
  let t0 : Reg := ⟨rs.sz, rt.n⟩
  let bytes := s0.bytes
  let addr := s.resolveMemAddr t mem
  match s.readMem addr bytes with
  | (first, s) =>
    match first, s.readMem (nextWord addr bytes) bytes with
    | some old0, (some old1, s) =>
      (if old0 = s.readReg t s0 ∧ old1 = s.readReg t (second rs) then
          (s.writeMem addr bytes (s.readReg t t0)).bind fun s =>
            s.writeMem (nextWord addr bytes) bytes (s.readReg t (second rt))
        else some s).map fun s => (s.writeReg t s0 old0).writeReg t (second rs) old1
    | _, _ => none

end Machine

/-! ### Instructions and their log -/

inductive Ins where
  | load (op : Machine.LoadOp) (bytes : Option Width) (rt : Reg) (mem : MemOperand)
  | loadPair (rt rt2 : Reg) (mem : MemOperand)
  | store (bytes : Option Width) (ws rt : Reg) (mem : MemOperand)
  | storePair (ws rt rt2 : Reg) (mem : MemOperand)
  | storeRelease (bytes : Option Width) (rt : Reg) (mem : MemOperand)
  | plainStore (writes : List (BitVec 64 × Width × BitVec 64))
  | rmw (op : Machine.RmwOp) (bytes : Option Width) (rs rt : Reg) (mem : MemOperand)
  | cas (bytes : Option Width) (rs rt : Reg) (mem : MemOperand)
  | casp (rs rt : Reg) (mem : MemOperand)
  | clrex
  /-- Any instruction that only changes registers. -/
  | compute (regs : RegsAarch64)

/-- An access of one word, or of a pair of adjacent words, with its values; the second is only used
by pairs. -/
structure Access where
  pair : Bool
  addr : BitVec 64
  bytes : Width
  values : BitVec 64 × BitVec 64
  deriving DecidableEq, Repr

inductive Event (n : Nat) where
  | exclusiveLoad (t : Fin n) (access : Access)
  | exclusiveStore (t : Fin n) (access : Access) (status : BitVec 64)
  | clear (t : Fin n)
  | other
  deriving DecidableEq, Repr

def Machine.execute (s : Machine n) (t : Fin n) : Ins → Option (Event n × Machine n)
  | .load op bytes rt mem => (s.load t op bytes rt mem).map fun out =>
    (if op.isExclusiveLoad then
        .exclusiveLoad t ⟨false, s.resolveMemAddr t mem, bytes.getD rt.bytes, (out.1, 0)⟩
      else .other, out.2)
  | .loadPair rt rt2 mem => (s.loadPair t rt rt2 mem).map fun out =>
    (.exclusiveLoad t ⟨true, s.resolveMemAddr t mem, rt.bytes, out.1⟩, out.2)
  | .store bytes ws rt mem => (s.store t bytes ws rt mem).map fun out =>
    (.exclusiveStore t
      ⟨false, s.resolveMemAddr t mem, bytes.getD rt.bytes, (s.readReg t rt, 0)⟩ out.1, out.2)
  | .storePair ws rt rt2 mem => (s.storePair t ws rt rt2 mem).map fun out =>
    (.exclusiveStore t
      ⟨true, s.resolveMemAddr t mem, rt.bytes, (s.readReg t rt, s.readReg t rt2)⟩ out.1, out.2)
  | .storeRelease bytes rt mem => (s.storeRelease t bytes rt mem).map (.other, ·)
  | .plainStore writes => (s.plainStore writes).map (.other, ·)
  | .rmw op bytes rs rt mem => (s.rmw t op bytes rs rt mem).map (.other, ·)
  | .cas bytes rs rt mem => (s.cas t bytes rs rt mem).map (.other, ·)
  | .casp rs rt mem => (s.casp t rs rt mem).map (.other, ·)
  | .clrex => some (.clear t, s.setExclusive t none)
  | .compute regs => some (.other, s.setRegs t regs)

structure Trace (n : Nat) where
  machine : Machine n
  log : List (Event n)

namespace Trace

def start (s : Machine n) : Trace n := ⟨s, []⟩

def step (s : Trace n) (op : Fin n × Ins) : Option (Trace n) :=
  (s.machine.execute op.1 op.2).map fun out => ⟨out.2, s.log ++ [out.1]⟩

end Trace

def Event.track (t : Fin n) (pending : Option Access) : Event n → Option Access
  | exclusiveLoad t' access => if t' = t then some access else pending
  | exclusiveStore t' _ _ => if t' = t then none else pending
  | clear t' => if t' = t then none else pending
  | other => pending

/-- The thread's last exclusive load, unless a store-exclusive or a clear came after it. -/
def pending (t : Fin n) (log : List (Event n)) : Option Access :=
  log.foldl (Event.track t) none

end Mwemu.Aarch64
