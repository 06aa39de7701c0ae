import Mwemu.Kernel.Heap
import Mwemu.Maps.Steps

/-!
# The kernel environment

The ledger of chunks together with the memory map, and the findings about its misuse. `kernelAlloc`
records a chunk before it maps it, `kernelFree` keeps a freed chunk mapped and poisoned, and the
guard asks the ledger about the accesses of the driver. A panic is `none`. The counters of attempts
and of hits count events of a run and do not reach `2 ^ 64`.
-/

namespace Mwemu.Kernel

open Mwemu.Lib

/-! ### Findings -/

inductive FindingKind where
  | useAfterFree
  | writeAfterFree
  | freedFunctionPointerCall
  | poisonDereference
  | doubleFree
  | invalidFree
  | heapOverflow
  | leak
  deriving DecidableEq, Repr

structure ChunkOrigin where
  addr : Nat := 0
  size : Nat := 0
  reqSize : UInt64 := 0
  cache : String := ""
  allocApi : String := ""
  allocPos : UInt64 := 0
  allocRip : UInt64 := 0
  freeApi : String := ""
  freePos : UInt64 := 0
  freeRip : UInt64 := 0
  deriving DecidableEq, Repr

def KernelChunk.origin (c : KernelChunk) : ChunkOrigin where
  addr := c.addr
  size := c.size
  reqSize := c.reqSize
  cache := c.cache
  allocApi := c.allocApi
  allocPos := c.allocPos
  allocRip := c.allocRip
  freeApi := c.freeApi
  freePos := c.freePos
  freeRip := c.freeRip

structure Finding where
  kind : FindingKind
  pos : UInt64
  rip : UInt64
  addr : Nat
  size : UInt32
  origin : ChunkOrigin
  hits : Nat
  deriving DecidableEq, Repr

def Finding.key (f : Finding) : FindingKind × UInt64 × Nat := (f.kind, f.rip, f.origin.addr)

structure KernelEnv where
  heap : KernelHeap
  findings : List Finding
  allocCount : Nat
  failAllocIndex : Option Nat
  deriving DecidableEq, Repr

def KernelEnv.new (os : KernelOs) : KernelEnv where
  heap := KernelHeap.forOs os
  findings := []
  allocCount := 0
  failAllocIndex := none

/-- The emulator, as far as the kernel environment uses it. -/
structure KernelEmu where
  maps : Maps
  kernel : KernelEnv

def Finding.hit (f : Finding) : Finding := { f with hits := f.hits + 1 }

def report (findings : List Finding) (finding : Finding) : List Finding :=
  match findings.findIdx? (fun f => f.key = finding.key) with
  | some i => findings.modify i Finding.hit
  | none => findings ++ [finding]

def KernelEmu.kernelReport (e : KernelEmu) (kind : FindingKind) (pos rip : UInt64) (addr : Nat)
    (bytes : UInt32) (origin : ChunkOrigin) : KernelEmu :=
  let finding : Finding := { kind, pos, rip, addr, size := bytes, origin, hits := 1 }
  { e with kernel.findings := report e.kernel.findings finding }

/-! ### The fixed maps -/

def readExecute : Permission := { read := true, write := false, execute := true }

def readWrite : Permission := { read := true, write := true, execute := false }

/-- A map of `kernel_init`, with the byte it is filled with. -/
structure FixedMap where
  name : String
  base : Nat
  size : Nat
  permission : Permission
  fill : Option UInt8

/-- The part of `KernelLayout` that is mapped from the start. -/
structure FixedLayout where
  stubBase : Nat
  stubSize : Nat
  dataBase : Nat
  dataSize : Nat
  stackBase : Nat
  stackSize : Nat

def FixedLayout.forOs : KernelOs → FixedLayout
  | .linux => ⟨0xffffffff81000000, 0x100000, 0xffffffff82000000, 0x100000, 0xffffc90000100000,
      0x20000⟩
  | .windows => ⟨0xfffff80000000000, 0x100000, 0xfffff80000200000, 0x100000, 0xffffe20000000000,
      0x20000⟩
  | .macOS => ⟨0xffffff8000200000, 0x100000, 0xffffff8000400000, 0x100000, 0xffffff9200000000,
      0x20000⟩

def FixedLayout.retpad (layout : FixedLayout) : Nat := layout.stubBase + layout.stubSize

def fixedMaps (os : KernelOs) : List FixedMap :=
  let layout := FixedLayout.forOs os
  [⟨"kernel.stubs", layout.stubBase, layout.stubSize, readExecute, some 0xc3⟩,
    ⟨"kernel.retpad", layout.retpad, 0x1000, readExecute, some 0xf4⟩,
    ⟨"kernel.data", layout.dataBase, layout.dataSize, readWrite, none⟩,
    ⟨"kernel.stack", layout.stackBase, layout.stackSize, readWrite, none⟩]

def fillMap (m : Maps) (key base size : Nat) (byte : UInt8) : Option Maps := do
  let r ← m.memSlab.get key
  let r ← r.forceWriteBytes base (List.replicate size byte)
  return { m with memSlab := m.memSlab.set key r }

/-- Creates one of the maps unless it is there; without it there is no kernel environment. -/
def initMap (m : Maps) (f : FixedMap) : Option Maps :=
  if m.existsMapname f.name then some m
  else
    match m.createMap f.name f.base f.size f.permission with
    | (m, .ok key) =>
      match f.fill with
      | some byte => fillMap m key f.base f.size byte
      | none => some m
    | (_, .error _) => none

def kernelInit (m : Maps) (os : KernelOs) : Option KernelEmu := do
  let m ← (fixedMaps os).foldlM initMap m
  return { maps := m, kernel := KernelEnv.new os }

/-! ### Allocation -/

def mapChunk (m : Maps) (c : KernelChunk) (zeroed : Bool) : Option (Maps × Nat) :=
  match m.createMap c.mapName c.addr c.size readWrite with
  | (m, .error _) => some (m, 0)
  | (m, .ok key) => do
      let m ← fillMap m key c.addr c.size (if zeroed then 0 else 0x5a)
      return (m, c.addr)

def KernelEmu.kernelAlloc (e : KernelEmu) (call : AllocCall) (zeroed : Bool) :
    Option (KernelEmu × Nat) :=
  let k := { e.kernel with allocCount := e.kernel.allocCount + 1 }
  if e.kernel.failAllocIndex = some e.kernel.allocCount then some ({ e with kernel := k }, 0)
  else do
    match ← k.heap.recordAlloc call with
    | (heap, none) => return ({ e with kernel := { k with heap } }, 0)
    | (heap, some c) =>
      let (m, ptr) ← mapChunk e.maps c zeroed
      return ({ maps := m, kernel := { k with heap } }, ptr)

/-! ### Release -/

def KernelChunk.isFreed (c : KernelChunk) : Bool := c.state = .freed

def KernelChunk.offsetOf (c : KernelChunk) (addr : Nat) : Nat := (addr + 2 ^ 64 - c.addr) % 2 ^ 64

namespace KernelHeap

def indexOfBase (h : KernelHeap) (addr : Nat) : Option Nat :=
  h.chunks.findIdx? fun c => c.addr = addr

def chunkAt (h : KernelHeap) (addr : Nat) : Option KernelChunk :=
  (h.indexOf addr).bind fun i => h.chunks[i]?

def recordFree (h : KernelHeap) (idx : Nat) (api : String) (pos rip : UInt64) : KernelHeap :=
  { h with chunks := h.chunks.modify idx fun c =>
      { c with state := .freed, freeApi := api, freePos := pos, freeRip := rip } }

def live (h : KernelHeap) : List KernelChunk := h.chunks.filter fun c => !c.isFreed

end KernelHeap

def poison (m : Maps) (addr size : Nat) : Option Maps :=
  match m.getMemByAddrMut addr with
  | (none, m) => some m
  | (some (key, r), m) => do
      let r ← r.forceWriteBytes addr (List.replicate size 0x6b)
      return { m with memSlab := m.memSlab.set key r }

def KernelEmu.kernelFree (e : KernelEmu) (ptr : UInt64) (api : String) (pos rip : UInt64) :
    Option (KernelEmu × Bool) :=
  if ptr = 0 then some (e, true)
  else
    match (e.kernel.heap.indexOfBase ptr.toNat).bind fun i =>
        (e.kernel.heap.chunks[i]?).map (Prod.mk i) with
    | none =>
      let origin := ((e.kernel.heap.chunkAt ptr.toNat).map KernelChunk.origin).getD {}
      some (e.kernelReport .invalidFree pos rip ptr.toNat 0 origin, false)
    | some (idx, c) =>
      if c.isFreed then some (e.kernelReport .doubleFree pos rip ptr.toNat 0 c.origin, false)
      else do
        let m ← poison e.maps c.addr c.size
        return ({ maps := m, kernel := { e.kernel with
          heap := e.kernel.heap.recordFree idx api pos rip } }, true)

def KernelEmu.kernelCheckLeaks (e : KernelEmu) (pos : UInt64) : KernelEmu :=
  e.kernel.heap.live.foldl (fun e c => e.kernelReport .leak pos c.allocRip c.addr 0 c.origin) e

/-! ### The guard -/

/-- The page of the address is that of eight, or of four, bytes of free poison. -/
def isFreePoison (addr : UInt64) : Bool :=
  addr &&& 0xfffffffffffff000 = 0x6b6b6b6b6b6b6b6b &&& 0xfffffffffffff000 ∨
    addr &&& 0xfffffffffffff000 = 0x6b6b6b6b &&& 0xfffffffffffff000

def accessKind (isWrite : Bool) : FindingKind :=
  if isWrite then .writeAfterFree else .useAfterFree

def KernelEmu.kernelGuardAccess (e : KernelEmu) (pos rip addr : UInt64) (bytes : UInt32)
    (isWrite : Bool) : KernelEmu :=
  if isFreePoison addr then
    e.kernelReport .poisonDereference pos rip addr.toNat bytes { cache := "freed object" }
  else
    match e.kernel.heap.chunkAt addr.toNat with
    | none => e
    | some c =>
      if c.isFreed then e.kernelReport (accessKind isWrite) pos rip addr.toNat bytes c.origin
      else if c.reqSize.toNat ≤ c.offsetOf addr.toNat then
        e.kernelReport .heapOverflow pos rip addr.toNat bytes c.origin
      else e

/-- A range that starts in a live chunk, against the size that was asked for. -/
def KernelEmu.kernelGuardLive (e : KernelEmu) (pos rip addr len : UInt64) (c : KernelChunk) :
    Option KernelEmu := do
  let stop ← addU64 (c.offsetOf addr.toNat) len.toNat
  if c.reqSize.toNat < stop then
    let oobAt ← addU64 c.addr c.reqSize.toNat
    return e.kernelReport .heapOverflow pos rip oobAt len.toUInt32 c.origin
  else return e

def KernelEmu.kernelGuardRange (e : KernelEmu) (pos rip addr len : UInt64) (isWrite : Bool) :
    Option KernelEmu :=
  if len = 0 then some e
  else
    match e.kernel.heap.chunkAt addr.toNat with
    | none => some e
    | some c =>
      if c.isFreed then
        some (e.kernelReport (accessKind isWrite) pos rip addr.toNat len.toUInt32 c.origin)
      else e.kernelGuardLive pos rip addr len c

/-! ### Runs -/

inductive KernelOp where
  | alloc (call : AllocCall) (zeroed : Bool)
  | free (ptr : UInt64) (api : String) (pos rip : UInt64)
  | checkLeaks (pos : UInt64)

def KernelOp.step (e : KernelEmu) : KernelOp → Option KernelEmu
  | .alloc call zeroed => (e.kernelAlloc call zeroed).map Prod.fst
  | .free ptr api pos rip => (e.kernelFree ptr api pos rip).map Prod.fst
  | .checkLeaks pos => some (e.kernelCheckLeaks pos)

end Mwemu.Kernel
