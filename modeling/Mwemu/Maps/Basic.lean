import Mwemu.Lib.OrdMap
import Mwemu.Lib.Slab
import Mwemu.Maps.Mem64

/-!
# The memory map manager

`Maps` keeps its regions in a slab and three indexes into it: by base address, by name, and a lookup
buffer that remembers the last region found for a page. Executable memory that changes is logged for
the instruction cache. A panic is `none`.
-/

namespace Mwemu

open Mwemu.Lib

def u64Max : Nat := 2 ^ 64 - 1

def lpfOf (addr : Nat) : Nat := addr &&& 0xfffffffffffff000

/-! ### The lookup buffer -/

def tlbSize : Nat := 2048
def invalidTlbEntry : Nat := 0xffffffffffffffff

structure TlbEntry where
  lpf : Nat
  mem64 : Nat
  deriving DecidableEq, Repr

abbrev Tlb := Nat → TlbEntry

def Tlb.new : Tlb := fun _ => { lpf := invalidTlbEntry, mem64 := 0 }

def Tlb.flush (tlb : Tlb) : Tlb := fun i => { tlb i with lpf := invalidTlbEntry }

def Tlb.getIndexOf (lpf len : Nat) : Nat :=
  ((lpf + len) &&& ((tlbSize - 1) <<< 12)) >>> 12

def Tlb.indexOfAddr (addr : Nat) : Nat := Tlb.getIndexOf (lpfOf addr) 0

structure Maps where
  memSlab : Slab Mem64
  maps : OrdMap Nat
  nameMap : String → Option Nat
  is64bits : Bool
  tlb : Tlb
  maxAllocSize : Nat
  codeWrites : List (Nat × Nat)

namespace Maps

def default : Maps :=
  { memSlab := Slab.empty
    maps := OrdMap.empty
    nameMap := fun _ => none
    is64bits := false
    tlb := Tlb.new
    maxAllocSize := 0xffffff
    codeWrites := [] }

/-! ### The log of writes to executable memory -/

def codeWritesCap : Nat := 64
def codeWritesAll : Nat × Nat := (0, u64Max)

def noteCodeWrite (m : Maps) (addr len : Nat) : Maps :=
  if m.codeWrites.head? = some codeWritesAll then m
  else if codeWritesCap ≤ m.codeWrites.length then { m with codeWrites := [codeWritesAll] }
  else { m with codeWrites := m.codeWrites ++ [(addr, len)] }

def hasCodeWrites (m : Maps) : Bool :=
  !m.codeWrites.isEmpty

def drainCodeWrites (m : Maps) : List (Nat × Nat) × Maps :=
  (m.codeWrites, { m with codeWrites := [] })

/-! ### Lookups -/

/-- The search of the index by base: the region with the greatest base not above the address. -/
def searchMaps (m : Maps) (addr : Nat) : Option (Nat × Mem64) := do
  let (_, key) ← m.maps.floor addr
  let r ← m.memSlab.get key
  if r.inside addr then some (key, r) else none

/-- The entry a search leaves in the buffer: the region it found, or what was there before. -/
def remember (tlb : Tlb) (addr : Nat) (found : Option (Nat × Mem64)) : Tlb :=
  match found with
  | some (key, _) => Function.update tlb (Tlb.indexOfAddr addr) { lpf := lpfOf addr, mem64 := key }
  | none => tlb

def getMemByAddr (m : Maps) (addr : Nat) : Option (Nat × Mem64) × Maps :=
  let key := (m.tlb (Tlb.indexOfAddr addr)).mem64
  let search := (m.searchMaps addr, { m with tlb := remember m.tlb addr (m.searchMaps addr) })
  match m.memSlab.get key with
  | some r => if r.inside addr then (some (key, r), m) else search
  | none => search

/-- Unlike `get_mem_by_addr`, a buffer entry with a vacant key is invalidated. -/
def getMemByAddrMut (m : Maps) (addr : Nat) : Option (Nat × Mem64) × Maps :=
  let idx := Tlb.indexOfAddr addr
  let key := (m.tlb idx).mem64
  match m.memSlab.get key with
  | some r =>
    if r.inside addr then (some (key, r), m)
    else (m.searchMaps addr, { m with tlb := remember m.tlb addr (m.searchMaps addr) })
  | none =>
    let tlb := Function.update m.tlb idx { m.tlb idx with lpf := invalidTlbEntry }
    (m.searchMaps addr, { m with tlb := remember tlb addr (m.searchMaps addr) })

/-! ### Creating and removing regions -/

def hex (n : Nat) : String := String.ofList (Nat.toDigits 16 n)

def existsMapname (m : Maps) (name : String) : Bool :=
  (m.nameMap name).isSome

def freshMem (name : String) (base size : Nat) (permission : Permission) : Mem64 :=
  (((Mem64.default.setName name).setBase base).setSize size).setPermission permission

def createMap (m : Maps) (name : String) (base size : Nat) (permission : Permission) :
    Maps × Except String Nat :=
  let (found, m) := m.getMemByAddrMut base
  if found.isSome then (m, .error ("The map address 0x" ++ hex base ++ " already exists!"))
  else if m.existsMapname name then (m, .error ("this map name " ++ name ++ " already exists!"))
  else
    let key := m.memSlab.nextKey
    let m :=
      { m with
        memSlab := m.memSlab.insert (freshMem name base size permission)
        nameMap := Function.update m.nameMap name (some key)
        maps := m.maps.insert base key
        tlb := m.tlb.flush }
    (if permission.execute then m.noteCodeWrite base size else m, .ok key)

def free (m : Maps) (name : String) : Maps :=
  match m.nameMap name with
  | none => m
  | some key =>
    match m.memSlab.get key with
    | none => { m with nameMap := Function.update m.nameMap name none }
    | some r =>
      { m with
        maps := m.maps.remove r.baseAddr
        memSlab := m.memSlab.remove key
        tlb := m.tlb.flush
        nameMap := Function.update m.nameMap name none }

def dealloc (m : Maps) (addr : Nat) : Maps :=
  match m.maps.get addr with
  | none => m
  | some key =>
    match m.memSlab.get key with
    | none => { m with maps := m.maps.remove addr }
    | some r =>
      let m := { m with nameMap := Function.update m.nameMap r.memName none }
      let m := if r.canExecute then m.noteCodeWrite r.baseAddr r.size else m
      { m with
        memSlab := m.memSlab.remove key
        tlb := m.tlb.flush
        maps := m.maps.remove addr }

/-- The end of a split in `unmap_range`: the bytes behind `stop` become a region of their own. -/
def recreateTail (m : Maps) (name : String) (stop : Nat) (tail : List UInt8)
    (permission : Permission) : Option Maps :=
  match m.createMap (name ++ "_" ++ hex stop) stop tail.length permission with
  | (m, .ok key) => do
      let r ← m.memSlab.get key
      let r ← r.forceWriteBytes stop tail
      some { m with memSlab := m.memSlab.set key r }
  | (m, .error _) => some m

def unmapOne (addr stop : Nat) (m : Maps) (base : Nat) : Option Maps := do
  let key ← m.maps.get base
  let r ← m.memSlab.get key
  if addr ≤ base ∧ r.bottomAddr ≤ stop then some (m.dealloc base)
  else if addr ≤ base then do
    let r ← r.dropFront (stop - base)
    some { m with
      memSlab := m.memSlab.set key r
      maps := (m.maps.remove base).insert stop key }
  else if r.bottomAddr ≤ stop then
    some { m with memSlab := m.memSlab.set key (r.truncate (addr - base)) }
  else do
    let (r, tail) ← r.splitOff stop
    let r := r.truncate (addr - base)
    let m := { m with memSlab := m.memSlab.set key r }
    m.recreateTail r.memName stop tail r.permission

/-- The bases of the regions that reach into `[addr, stop)`; `none` if an index entry has no
region. -/
def overlapping (m : Maps) (addr stop : Nat) : Option (List Nat) :=
  let entries := m.maps.range 0 stop
  if entries.all fun entry => (m.memSlab.get entry.2).isSome then
    some ((entries.filter fun entry =>
      (m.memSlab.get entry.2).any fun r => decide (addr < r.bottomAddr)).map Prod.fst)
  else none

def unmapRange (m : Maps) (addr len : Nat) : Option Maps :=
  if 2 ^ 64 ≤ addr + len then some m
  else do
    let bases ← m.overlapping addr (addr + len)
    let m ← bases.foldlM (unmapOne addr (addr + len)) m
    some { m with tlb := m.tlb.flush }

/-! ### Placing regions -/

def defaultAlignment : Nat := 0x1000

def alignUp (addr align : Nat) : Nat :=
  ((addr + (align - 1)) % 2 ^ 64) &&& (2 ^ 64 - align)

/-- The search for a gap between the regions, from the end `prev + sz` of the last one seen. -/
def findGap (m : Maps) (alignedSize : Nat) : List (Nat × Nat) → Nat → Nat → Option Nat
  | [], _, _ => none
  | (memBase, key) :: rest, prev, sz =>
    let gap := (prev + sz) % 2 ^ 64
    if gap ≤ memBase ∧ alignedSize < memBase - gap then some gap
    else
      match m.memSlab.get key with
      | none => m.findGap alignedSize rest prev sz
      | some r => m.findGap alignedSize rest memBase r.size

def allocUncapped (m : Maps) (size bottom top : Nat) : Option Nat :=
  let bottomAligned := alignUp bottom defaultAlignment
  let alignedSize := alignUp size defaultAlignment
  let lastEntryEnd :=
    match m.maps.floor (top - 1) with
    | some (base, key) =>
      let sz := ((m.memSlab.get key).map Mem64.size).getD 0
      max (alignUp ((base + sz) % 2 ^ 64) defaultAlignment) bottomAligned
    | none => bottomAligned
  if lastEntryEnd ≤ top ∧ alignedSize < top - lastEntryEnd then some lastEntryEnd
  else m.findGap alignedSize (m.maps.range bottomAligned top) bottomAligned 0

def allocCapped (m : Maps) (size bottom top : Nat) : Option Nat :=
  m.allocUncapped (min size m.maxAllocSize) bottom top

def alloc32Min : Nat := 0x6000000
def alloc32Max : Nat := 0x6FFFFFFF
def libs32Min : Nat := 0x70000000
def libs32Max : Nat := 0x7FFE0000
def alloc64Min : Nat := 0x710000000000
def alloc64Max : Nat := 0x7fefffffffff
def libs64Min : Nat := 0x7FF000000000
def libs64Max : Nat := 0x7FFFFFFFFFFF

def alloc (m : Maps) (sz : Nat) : Option Nat :=
  if m.is64bits then m.allocCapped sz alloc64Min alloc64Max
  else m.allocCapped sz alloc32Min alloc32Max

def libAlloc (m : Maps) (sz : Nat) : Option Nat :=
  if m.is64bits then m.allocCapped sz libs64Min libs64Max
  else m.allocCapped sz libs32Min libs32Max

def mapAt (m : Maps) (found : Option Nat) (name : String) (sz : Nat) (permission : Permission) :
    Maps × Nat :=
  match found with
  | none => (m, 0)
  | some addr =>
    match m.createMap name addr sz permission with
    | (m, .ok _) => (m, addr)
    | (m, .error _) => (m, 0)

def map (m : Maps) (name : String) (sz : Nat) (permission : Permission) : Maps × Nat :=
  m.mapAt (m.alloc sz) name sz permission

def mapLib (m : Maps) (name : String) (sz : Nat) (permission : Permission) : Maps × Nat :=
  m.mapAt (m.libAlloc sz) name sz permission

/-! ### The self test -/

def overlaps (r₁ r₂ : Mem64) : Bool :=
  decide (r₁.baseAddr < r₂.bottomAddr) && decide (r₂.baseAddr < r₁.bottomAddr)

def memTest (m : Maps) : Bool :=
  (m.memSlab.entries.all fun e₁ => m.memSlab.entries.all fun e₂ =>
    e₁.1 == e₂.1 || !overlaps e₁.2 e₂.2) &&
  m.memSlab.entries.all fun e => e.2.baseAddr + e.2.size == e.2.bottomAddr

end Maps

end Mwemu
