import Mwemu.Lib.OrdMap

/-!
# The arena allocator

`O1Heap` keeps the fragments of an arena in a list ordered by address, linked both ways, the free
ones also in one list per size class, and an index from offsets to fragments. The nodes are shared
cells: a node is a number here, and the heap holds the cells of all nodes ever made. Links forward
are strong, links back are weak, so a way back can be taken only while its node is held by the index,
by a bin or by a node that is itself held.

Offsets and sizes are `u32` and wrap around, as in a build without overflow checks (the release
profile). An operation returns `none` where the program panics in any build: on an `unwrap` of
nothing, and when a cell is borrowed twice.
-/

namespace Mwemu

open Mwemu.Lib

namespace O1Heap

def numBinsMax : Nat := 512

def fragmentSizeMin : Nat := 256

structure Fragment where
  offset : Nat
  size : Nat
  used : Bool
  next : Option Nat
  prev : Option Nat
  nextFree : Option Nat
  prevFree : Option Nat
  deriving DecidableEq, Repr

def Fragment.new (offset size : Nat) : Fragment :=
  ⟨offset, size, false, none, none, none, none⟩

structure Diagnostics where
  capacity : Nat
  allocated : Nat
  peakAllocated : Nat
  peakRequestSize : Nat
  oomCount : Nat
  deriving DecidableEq, Repr

end O1Heap

/-- `nodes` are the cells, of which those below `fresh` have been made. -/
structure O1Heap where
  base : Nat
  bins : Nat → Option Nat
  hashes : OrdMap Nat
  nonemptyBinMask : Nat
  diagnostics : O1Heap.Diagnostics
  nodes : Nat → O1Heap.Fragment
  fresh : Nat

namespace O1Heap

/-! ### Sizes -/

def log2Floor (x : Nat) : Nat :=
  Nat.log2 x

def roundUpToPowerOf2 (x : Nat) : Nat :=
  if x ≤ 1 then 1
  else if 2 ^ 63 < x then 0
  else if 2 ^ Nat.log2 x = x then x
  else 2 ^ (Nat.log2 x + 1)

def log2Ceil (x : Nat) : Nat :=
  if x ≤ 1 then 0 else log2Floor (x - 1) + 1

/-- The size of the fragment for a request, or zero if it cannot be represented. -/
def fragmentSize (amount : Nat) : Nat :=
  if roundUpToPowerOf2 amount = 0 then 0 else max (roundUpToPowerOf2 amount) fragmentSizeMin

def binIndex (size : Nat) : Nat :=
  log2Floor (size / fragmentSizeMin)

def minArenaSize : Nat := 512

/-! ### Cells -/

def modify (h : O1Heap) (id : Nat) (f : Fragment → Fragment) : O1Heap :=
  { h with nodes := fun i => if i = id then f (h.nodes i) else h.nodes i }

def setSize (h : O1Heap) (id size : Nat) : O1Heap :=
  h.modify id fun f => { f with size := size % 2 ^ 32 }

def setUsed (h : O1Heap) (id : Nat) (used : Bool) : O1Heap :=
  h.modify id fun f => { f with used := used }

def rooted (h : O1Heap) (id : Nat) : Bool :=
  h.hashes.toList.any (fun entry => entry.2 == id) ||
    (List.range numBinsMax).any fun i => h.bins i == some id

def holdStep (h : O1Heap) (held : List Nat) : List Nat :=
  held.filter fun id => h.rooted id ||
    held.any fun i => (h.nodes i).next == some id || (h.nodes i).nextFree == some id

def held (h : O1Heap) : List Nat :=
  h.holdStep^[h.fresh] (List.range h.fresh)

def upgrade (h : O1Heap) (link : Option Nat) : Option Nat :=
  link.filter fun id => h.held.contains id

/-! ### Bins -/

def rebin (h : O1Heap) (id : Nat) : Option O1Heap :=
  let size := (h.nodes id).size
  let idx := binIndex size
  if size < fragmentSizeMin then some h
  else if numBinsMax ≤ idx then some h
  else if h.bins idx = some id then none
  else
    let next := h.bins idx
    some
      { h with
        bins := fun i => if i = idx then some id else h.bins i
        nonemptyBinMask := h.nonemptyBinMask ||| 2 ^ idx
        nodes := fun i =>
          if i = id then { h.nodes i with nextFree := next, prevFree := none }
          else if next = some i then { h.nodes i with prevFree := some id }
          else h.nodes i }

def unbin (h : O1Heap) (id : Nat) : Option O1Heap :=
  let size := (h.nodes id).size
  let idx := binIndex size
  let next := (h.nodes id).nextFree
  let prev := (h.nodes id).prevFree
  if size < fragmentSizeMin then some h
  else if numBinsMax ≤ idx then some h
  else if next = some id ∨ prev = some id then none
  else
    let nodes := fun i =>
      if next = some i then { h.nodes i with prevFree := prev } else h.nodes i
    if prev = none then
      some
        { h with
          nodes := nodes
          bins := fun i => if i = idx then next else h.bins i
          nonemptyBinMask :=
            if next = none then h.nonemptyBinMask &&& (2 ^ 64 - 1 - 2 ^ idx)
            else h.nonemptyBinMask }
    else
      some
        { h with
          nodes := fun i =>
            if h.upgrade prev = some i then { nodes i with nextFree := next } else nodes i }

/-! ### The list -/

def linkNext (h : O1Heap) (id : Nat) (after : Option Nat) : O1Heap :=
  { h with nodes := fun i =>
      let f := if after = some i then { h.nodes i with prev := some id } else h.nodes i
      if i = id then { f with next := after } else f }

/-- A new fragment between the node and `after`, with its entry in the index. -/
def insertAfter (h : O1Heap) (id offset size : Nat) (after : Option Nat) : O1Heap :=
  { h with
    nodes := fun i =>
      if i = h.fresh then
        { Fragment.new (offset % 2 ^ 32) (size % 2 ^ 32) with next := after, prev := some id }
      else
        let f := if after = some i then { h.nodes i with prev := some h.fresh } else h.nodes i
        if i = id then { f with next := some h.fresh } else f
    fresh := h.fresh + 1
    hashes := h.hashes.insert (offset % 2 ^ 32) h.fresh }

/-- The fragment is cut to the new size, and what is left over becomes a free fragment. -/
def splitOff (h : O1Heap) (id newSize offset leftover : Nat) (after : Option Nat) :
    Option O1Heap :=
  ((h.setSize id newSize).insertAfter id offset leftover after).rebin h.fresh

/-- The fragment gets the size, and what follows it up to `after` leaves the list. -/
def absorb (h : O1Heap) (id size : Nat) (after : Option Nat) : O1Heap :=
  (h.setSize id size).linkNext id after

def new (base : UInt64) (size : UInt32) : Option O1Heap :=
  if size.toNat < minArenaSize then none
  else
    rebin
      { base := base.toNat
        bins := fun _ => none
        hashes := OrdMap.empty.insert 0 0
        nonemptyBinMask := 0
        diagnostics := ⟨size.toNat, 0, 0, 0, 0⟩
        nodes := fun _ => Fragment.new 0 size.toNat
        fresh := 1 } 0

/-! ### Queries -/

def offsetOf (h : O1Heap) (addr : Nat) : Nat :=
  (addr + 2 ^ 64 - h.base) % 2 ^ 32

def checkFragmentExists (h : O1Heap) (addr : Nat) : Bool :=
  if addr < h.base then false
  else
    match h.hashes.get (h.offsetOf addr) with
    | some id => (h.nodes id).used
    | none => false

def allocationSize (h : O1Heap) (addr : Nat) : Option Nat :=
  if addr < h.base then none
  else
    match h.hashes.get (h.offsetOf addr) with
    | some id => if (h.nodes id).used then some (h.nodes id).size else none
    | none => none

/-! ### Allocation -/

def smallestBin (h : O1Heap) (optimal : Nat) : Option Nat :=
  (List.range 64).find? (h.nonemptyBinMask &&& (2 ^ 64 - 2 ^ optimal)).testBit

def addAllocated (h : O1Heap) (amount : Nat) : O1Heap :=
  { h with diagnostics := { h.diagnostics with
      allocated := h.diagnostics.allocated + amount
      peakAllocated := max h.diagnostics.peakAllocated (h.diagnostics.allocated + amount) } }

def subAllocated (h : O1Heap) (amount : Nat) : O1Heap :=
  { h with diagnostics := { h.diagnostics with
      allocated := h.diagnostics.allocated - amount } }

def countOom (h : O1Heap) : O1Heap :=
  { h with diagnostics := { h.diagnostics with oomCount := h.diagnostics.oomCount + 1 } }

def recordRequest (h : O1Heap) (amount : Nat) : O1Heap :=
  { h with diagnostics := { h.diagnostics with
    peakRequestSize := max h.diagnostics.peakRequestSize amount } }

def markUsed (h : O1Heap) (id offset size : Nat) : O1Heap :=
  let h := (h.setUsed id true).setSize id size
  { h with hashes := h.hashes.insert offset id }.addAllocated size

/-- Use the fragment, which has been taken out of its bin, for a request of the size. -/
def takeFragment (h : O1Heap) (id size : Nat) : Option O1Heap :=
  let frag := h.nodes id
  let leftover := (frag.size + 2 ^ 32 - size) % 2 ^ 32
  if fragmentSizeMin ≤ leftover then
    (h.splitOff id size (frag.offset + size) leftover frag.next).map fun h =>
      h.markUsed id frag.offset size
  else some ((h.setSize id size).markUsed id frag.offset size)

def allocate (h : O1Heap) (amount : Nat) : Option (Option Nat × O1Heap) :=
  let size := fragmentSize amount
  if amount = 0 then some (none, h)
  else if size = 0 ∨ h.diagnostics.capacity < size then some (none, h.countOom)
  else
    match h.smallestBin (log2Ceil (size / fragmentSizeMin)) with
    | none => some (none, h)
    | some idx => do
        let id ← h.bins idx
        let h ← { h with bins := fun i => if i = idx then none else h.bins i }.unbin id
        let offset := (h.nodes id).offset
        let h ← h.takeFragment id size
        return (some ((offset + h.base) % 2 ^ 64), h)

/-! ### Release -/

def markFree (h : O1Heap) (id : Nat) : O1Heap :=
  let frag := h.nodes id
  let h := (h.subAllocated frag.size).setUsed id false
  { h with hashes := h.hashes.remove frag.offset }

def invalidSize (h : O1Heap) (size : Nat) : Bool :=
  size < fragmentSizeMin || h.diagnostics.capacity < size || size % fragmentSizeMin ≠ 0

def freeNext (h : O1Heap) (id : Nat) : Option Nat :=
  (h.nodes id).next.filter fun i => !(h.nodes i).used

def freePrev (h : O1Heap) (id : Nat) : Option Nat :=
  (h.upgrade (h.nodes id).prev).filter fun i => !(h.nodes i).used

/-- Merge the released fragment with its free neighbours and put the result into its bin. -/
def coalesce (h : O1Heap) (id : Nat) : Option O1Heap :=
  match h.freePrev id, h.freeNext id with
  | some prev, some next => do
      let h ← h.unbin prev
      let h ← h.unbin next
      if prev = id ∨ prev = next then none
      let size := (h.nodes prev).size + ((h.nodes id).size + (h.nodes next).size)
      let h := (h.setSize id 0).setSize next 0
      (h.absorb prev size (h.nodes next).next).rebin prev
  | some prev, none => do
      let h ← h.unbin prev
      if prev = id then none
      let size := (h.nodes prev).size + (h.nodes id).size
      let h := h.setSize id 0
      (h.absorb prev size (h.nodes id).next).rebin prev
  | none, some next => do
      let h ← h.unbin next
      if id = next then none
      let size := (h.nodes id).size + (h.nodes next).size
      let h := h.setSize next 0
      (h.absorb id size (h.nodes next).next).rebin id
  | none, none => h.rebin id

def free (h : O1Heap) (address : Nat) : Option O1Heap :=
  match h.hashes.get (h.offsetOf address) with
  | none => some h
  | some id =>
    let frag := h.nodes id
    if !frag.used then some h
    else if h.invalidSize frag.size then some h
    else if h.diagnostics.allocated < frag.size then some h
    else (h.markFree id).coalesce id

/-! ### Reallocation -/

structure ReallocResult where
  newAddr : Nat
  copySize : Nat
  deriving DecidableEq, Repr

def sizeOf (h : O1Heap) (id : Option Nat) : Nat :=
  id.elim 0 fun i => (h.nodes i).size

def discard (h : O1Heap) (id : Nat) : O1Heap :=
  let h := h.setSize id 0
  { h with hashes := h.hashes.remove (h.nodes id).offset }

def retire (h : O1Heap) (id : Nat) : Option O1Heap :=
  (h.unbin id).map fun h => h.discard id

def shrink (h : O1Heap) (address id newSize : Nat) : Option (Option ReallocResult × O1Heap) :=
  let offset := address - h.base
  let leftover := (h.nodes id).size - newSize
  if leftover < fragmentSizeMin then some (some ⟨address, 0⟩, h)
  else if h.diagnostics.allocated < leftover then some (none, h)
  else do
    let h := h.subAllocated leftover
    let next := h.freeNext id
    let tail := leftover + h.sizeOf next
    let after := next.elim (h.nodes id).next fun i => (h.nodes i).next
    let h ← next.elim (some h) h.retire
    let h ← h.splitOff id newSize (offset + newSize) tail after
    return (some ⟨address, 0⟩, h)

/-- The fragment takes the free one after it, and gives back what is too much. -/
def growForward (h : O1Heap) (address id next newSize : Nat) :
    Option (Option ReallocResult × O1Heap) := do
  let offset := address - h.base
  let fragSize := (h.nodes id).size
  let nextSize := (h.nodes next).size
  let after := (h.nodes next).next
  let h ← h.retire next
  let leftover := fragSize + nextSize - newSize
  if fragmentSizeMin ≤ leftover then
    let h ← h.splitOff id newSize (offset + newSize) leftover after
    return (some ⟨address, 0⟩, h.addAllocated (newSize - fragSize))
  else
    let h := h.absorb id (fragSize + nextSize) after
    return (some ⟨address, 0⟩, h.addAllocated nextSize)

/-- The fragments that the one before has taken become stale, and it gets its entry in the index. -/
def settleBackward (h : O1Heap) (prev id : Nat) (next : Option Nat) (prevOffset offset : Nat) :
    O1Heap :=
  let h := (h.setUsed id false).setSize id 0
  let h := { h with hashes := h.hashes.remove offset }
  let h := next.elim h h.discard
  { h with hashes := h.hashes.insert prevOffset prev }

/-- The free fragment before becomes the allocation, and takes the free one after it as well. The
size of the next fragment counts whether it is free or not. -/
def growBackward (h : O1Heap) (address id prev newSize : Nat) :
    Option (Option ReallocResult × O1Heap) := do
  let offset := address - h.base
  let fragSize := (h.nodes id).size
  let prevSize := (h.nodes prev).size
  let prevOffset := (h.nodes prev).offset
  let nextSize := h.sizeOf (h.nodes id).next
  let next := h.freeNext id
  let after := next.elim (h.nodes id).next fun i => (h.nodes i).next
  let h ← h.unbin prev
  let h ← next.elim (some h) h.unbin
  let leftover := prevSize + fragSize + nextSize - newSize
  let h := h.setUsed prev true
  let h ←
    if fragmentSizeMin ≤ leftover then
      (h.splitOff prev newSize (prevOffset + newSize) leftover after).map fun h =>
        h.addAllocated (newSize - fragSize)
    else
      let h := h.absorb prev (prevSize + fragSize + nextSize) after
      some (h.addAllocated (prevSize + nextSize))
  let h := h.settleBackward prev id next prevOffset offset
  return (some ⟨(h.base + prevOffset) % 2 ^ 64, fragSize⟩, h)

def moveAway (h : O1Heap) (address amount copySize : Nat) :
    Option (Option ReallocResult × O1Heap) := do
  match ← h.allocate amount with
  | (none, h) => return (none, h)
  | (some newAddr, h) => return (some ⟨newAddr, copySize⟩, ← h.free address)

def resize (h : O1Heap) (address id amount : Nat) : Option (Option ReallocResult × O1Heap) :=
  let newSize := fragmentSize amount
  let fragSize := (h.nodes id).size
  let nextSize := h.sizeOf (h.nodes id).next
  let prevSize := h.sizeOf (h.upgrade (h.nodes id).prev)
  if newSize ≤ fragSize then h.shrink address id newSize
  else
    match (h.freeNext id).filter fun _ => newSize ≤ fragSize + nextSize with
    | some next => h.growForward address id next newSize
    | none =>
      match (h.freePrev id).filter fun _ => newSize ≤ prevSize + fragSize + nextSize with
      | some prev => h.growBackward address id prev newSize
      | none => h.moveAway address amount fragSize

def reallocate (h : O1Heap) (address amount : Nat) : Option (Option ReallocResult × O1Heap) :=
  if amount = 0 then (h.free address).map fun h => (none, h)
  else
    let h := h.recordRequest amount
    if address < h.base ∨ 2 ^ 32 ≤ address - h.base then some (none, h)
    else
      match h.hashes.get (address - h.base) with
      | none => some (none, h)
      | some id =>
        let size := (h.nodes id).size
        if !(h.nodes id).used then some (none, h)
        else if h.invalidSize size then some (none, h)
        else if fragmentSize amount = 0 ∨ h.diagnostics.capacity < amount ∨
            h.diagnostics.capacity < fragmentSize amount then some (none, h.countOom)
        else h.resize address id amount

/-! ### Runs -/

inductive Op where
  | allocate (amount : Nat)
  | free (address : Nat)
  | reallocate (address amount : Nat)

def step (h : O1Heap) : Op → Option O1Heap
  | .allocate amount => (h.allocate amount).map Prod.snd
  | .free address => h.free address
  | .reallocate address amount => (h.reallocate address amount).map Prod.snd

end O1Heap

end Mwemu
