import Mwemu.Lib.Segment
import Mwemu.Lib.Text
import Mwemu.Maps.Bytes

/-!
# The minidump writer

A minidump is a header, a directory of five streams, and the streams, each of them a table with its
trailing data: the bytes of the regions, the names of the modules, the contexts of the threads.
Offsets are computed ahead of the writing in 32-bit numbers that wrap around. Only the padding in
front of the next stream compares an offset with the length of what has been written.

The context of a thread is the block of its registers that the context builder returns, and the name
that a module is listed under comes from the file system; both are inputs here.
-/

namespace Mwemu.Minidump

open Mwemu.Lib

def minidumpHeaderSize : Nat := 32
def minidumpDirectorySize : Nat := 12
def minidumpThreadSize : Nat := 48
def minidumpModuleSize : Nat := 108
def minidumpMemoryDescriptorSize : Nat := 16
def minidumpMemoryInfoSize : Nat := 48
def minidumpFlagsFullMemory : Nat := 0x802
def streamCount : Nat := 5

def u32Max : Nat := 0xffffffff

def add32 (a b : Nat) : Nat :=
  (a + b % 2 ^ 32) % 2 ^ 32

def align4 (value : Nat) : Nat :=
  ((value + 3) % 2 ^ 32) &&& 0xfffffffc

/-! ### What is dumped -/

inductive Arch where
  | x86
  | x86_64
  deriving DecidableEq, Repr

inductive OperatingSystem where
  | windows
  | linux
  | macOS
  deriving DecidableEq, Repr

def Arch.contextSize : Arch → Nat
  | .x86 => 716
  | .x86_64 => 1232

structure Thread (arch : Arch) where
  id : Nat
  suspended : Bool
  sp : Nat
  context : List UInt8
  size_eq : context.length = arch.contextSize

structure Emu where
  arch : Arch
  os : OperatingSystem
  maps : Maps
  wf : maps.Wf
  threads : List (Thread arch)
  currentThreadId : Nat
  /-- The name of a module in the dump. -/
  displayNameForModule : String → String
  /-- The seconds of the clock. -/
  now : Nat

structure MemoryRegion where
  name : String
  base : Nat
  bytes : List UInt8
  permission : Permission

structure ModuleInfo where
  modulePrefix : String
  displayName : String
  base : Nat
  sizeOfImage : Nat

structure StreamLayout where
  streamType : Nat
  rva : Nat
  data : List UInt8
  trailingData : List UInt8

def collectMemoryRegions (emu : Emu) : List MemoryRegion :=
  emu.maps.maps.toList.filterMap fun entry =>
    (emu.maps.memSlab.get entry.2).bind fun mem =>
      if mem.size = 0 then none
      else
        some
          { name := mem.memName
            base := entry.1
            bytes := mem.mem
            permission := mem.permission }

def regionBelongsToModule (name modulePrefix : String) : Bool :=
  if name = modulePrefix ++ ".pe" then true
  else if modulePrefix.toList.isPrefixOf name.toList then
    match name.toList.drop modulePrefix.length with
    | [] => false
    | c :: _ => c == '.' || c.isDigit || ('a' ≤ c && c ≤ 'f') || ('A' ≤ c && c ≤ 'F')
  else false

def collectModules (emu : Emu) (regions : List MemoryRegion) : List ModuleInfo :=
  regions.filterMap fun region =>
    (Text.stripSuffix ".pe".toList region.name.toList).map fun modulePrefix =>
      let modulePrefix := String.ofList modulePrefix
      let ends := (regions.filter fun candidate =>
        decide (region.base ≤ candidate.base) &&
          regionBelongsToModule candidate.name modulePrefix).map fun candidate =>
            (candidate.base + candidate.bytes.length) % 2 ^ 64
      let sizeEnd := ends.max?.getD ((region.base + region.bytes.length) % 2 ^ 64)
      { modulePrefix
        displayName := emu.displayNameForModule modulePrefix
        base := region.base
        sizeOfImage := min (sizeEnd - region.base) u32Max }

/-! ### Streams -/

/-- Each element with its offset: the elements stand one after the other from `rva` on. -/
def placed {β : Type} (size : β → Nat) : Nat → List β → List (β × Nat)
  | _, [] => []
  | rva, x :: xs => (x, rva) :: placed size (add32 rva (size x)) xs

def MemoryRegion.dataSize (region : MemoryRegion) : Nat :=
  min region.bytes.length u32Max

def memoryDescriptor (entry : MemoryRegion × Nat) : List UInt8 :=
  leBytes 8 entry.1.base ++ (leBytes 4 entry.1.dataSize ++ leBytes 4 entry.2)

def memoryLocations (regions : List MemoryRegion) (baseRva : Nat) : List (MemoryRegion × Nat) :=
  let headerSize := add32 4 (regions.length % 2 ^ 32 * minidumpMemoryDescriptorSize)
  placed MemoryRegion.dataSize (add32 baseRva headerSize) regions

def buildMemoryListStream (regions : List MemoryRegion) (baseRva : Nat) : StreamLayout where
  streamType := 5
  rva := baseRva
  data := leBytes 4 regions.length ++ (memoryLocations regions baseRva).flatMap memoryDescriptor
  trailingData := regions.flatMap fun region => region.bytes.take u32Max

def locationTable (locations : List (MemoryRegion × Nat)) : OrdMap (Nat × Nat) :=
  locations.foldl (fun table entry => table.insert entry.1.base (entry.1.dataSize, entry.2))
    OrdMap.empty

def permissionToMemoryProtection (permission : Permission) : Nat :=
  match permission.read, permission.write, permission.execute with
  | false, false, false => 0x01
  | true, false, false => 0x02
  | _, true, false => 0x04
  | false, false, true => 0x10
  | true, false, true => 0x20
  | _, true, true => 0x40

def memoryInfo (modules : List ModuleInfo) (region : MemoryRegion) : List UInt8 :=
  let (allocationBase, memoryType) :=
    match modules.find? fun module => regionBelongsToModule region.name module.modulePrefix with
    | some module => (module.base, 0x1000000)
    | none => (region.base, 0x20000)
  let protection := permissionToMemoryProtection region.permission
  leBytes 8 region.base ++ leBytes 8 allocationBase ++ leBytes 4 protection ++ leBytes 4 0 ++
    leBytes 8 region.bytes.length ++ leBytes 4 0x1000 ++ leBytes 4 protection ++
    leBytes 4 memoryType ++ leBytes 4 0

def buildMemoryInfoListStream (regions : List MemoryRegion) (modules : List ModuleInfo)
    (baseRva : Nat) : StreamLayout where
  streamType := 16
  rva := baseRva
  data := leBytes 4 16 ++ leBytes 4 minidumpMemoryInfoSize ++ leBytes 8 regions.length ++
    regions.flatMap (memoryInfo modules)
  trailingData := []

def buildSystemInfoStream (emu : Emu) (baseRva : Nat) : StreamLayout where
  streamType := 7
  rva := baseRva
  data :=
    let processorArchitecture :=
      match emu.arch with
      | .x86 => 0
      | .x86_64 => 9
    let platformId :=
      match emu.os with
      | .windows => 2
      | .linux => 0x8201
      | .macOS => 0x8101
    let (majorVersion, minorVersion, buildNumber, productType) :=
      match emu.os with
      | .windows => (10, 0, 19041, 1)
      | _ => (0, 0, 0, 0)
    leBytes 2 processorArchitecture ++ leBytes 2 6 ++ leBytes 2 0 ++ leBytes 1 1 ++
      leBytes 1 productType ++ leBytes 4 majorVersion ++ leBytes 4 minorVersion ++
      leBytes 4 buildNumber ++ leBytes 4 platformId ++ leBytes 4 0 ++ leBytes 2 0 ++ leBytes 2 0 ++
      List.replicate 24 0
  trailingData := []

def encodeUtf16 (value : String) : List Nat :=
  value.toList.flatMap fun c =>
    if c.toNat < 0x10000 then [c.toNat]
    else [0xd800 + (c.toNat - 0x10000) / 0x400, 0xdc00 + (c.toNat - 0x10000) % 0x400]

def encodeMinidumpString (value : String) : List UInt8 :=
  leBytes 4 (2 * (encodeUtf16 value).length) ++ (encodeUtf16 value).flatMap (leBytes 2)

def fixedFileInfo : List UInt8 :=
  leBytes 4 0xfeef04bd ++ leBytes 4 0x10000 ++ List.replicate 44 0

def ModuleInfo.nameBlob (module : ModuleInfo) : List UInt8 :=
  encodeMinidumpString module.displayName

def moduleEntry (entry : ModuleInfo × Nat) : List UInt8 :=
  leBytes 8 entry.1.base ++ leBytes 4 entry.1.sizeOfImage ++ leBytes 4 0 ++ leBytes 4 0 ++
    (leBytes 4 entry.2 ++ (fixedFileInfo ++ List.replicate 32 0))

def nameLocations (modules : List ModuleInfo) (baseRva : Nat) : List (ModuleInfo × Nat) :=
  let headerSize := add32 4 (modules.length % 2 ^ 32 * minidumpModuleSize)
  placed (fun module => module.nameBlob.length) (add32 baseRva headerSize) modules

def buildModuleListStream (modules : List ModuleInfo) (baseRva : Nat) : StreamLayout where
  streamType := 4
  rva := baseRva
  data := leBytes 4 modules.length ++ (nameLocations modules baseRva).flatMap moduleEntry
  trailingData := modules.flatMap ModuleInfo.nameBlob

/-- The base, size and offset of the bytes of the region with the stack pointer. -/
def stackLocationForThread (sp : Nat) (regions : List MemoryRegion)
    (locations : List (MemoryRegion × Nat)) : Nat × Nat × Nat :=
  let found := regions.find? fun region =>
    decide (region.base ≤ sp) && decide (sp < (region.base + region.bytes.length) % 2 ^ 64)
  match found with
  | none => (0, 0, 0)
  | some region =>
    match (locationTable locations).get region.base with
    | none => (0, 0, 0)
    | some location => (region.base, location)

def teb (emu : Emu) (threadIdx : Nat) : Nat :=
  if threadIdx = emu.currentThreadId then
    (((emu.maps.nameMap "teb").bind emu.maps.memSlab.get).map Mem64.baseAddr).getD 0
  else 0

def threadEntry (emu : Emu) (regions : List MemoryRegion) (locations : List (MemoryRegion × Nat))
    (entry : (Thread emu.arch × Nat) × Nat) : List UInt8 :=
  let thread := entry.1.1
  let stack := stackLocationForThread thread.sp regions locations
  leBytes 4 (min thread.id u32Max) ++ leBytes 4 thread.suspended.toNat ++ leBytes 4 0 ++
    leBytes 4 0 ++ leBytes 8 (teb emu entry.1.2) ++
    (leBytes 8 stack.1 ++ (leBytes 4 stack.2.1 ++ (leBytes 4 stack.2.2 ++
      (leBytes 4 thread.context.length ++ leBytes 4 entry.2))))

def contextLocations (emu : Emu) (baseRva : Nat) : List ((Thread emu.arch × Nat) × Nat) :=
  let headerSize := add32 4 (emu.threads.length % 2 ^ 32 * minidumpThreadSize)
  placed (fun thread => thread.1.context.length) (add32 baseRva headerSize) emu.threads.zipIdx

def buildThreadListStream (emu : Emu) (regions : List MemoryRegion)
    (locations : List (MemoryRegion × Nat)) (baseRva : Nat) : StreamLayout where
  streamType := 3
  rva := baseRva
  data := leBytes 4 emu.threads.length ++
    (contextLocations emu baseRva).flatMap (threadEntry emu regions locations)
  trailingData := emu.threads.flatMap Thread.context

/-! ### The file -/

def StreamLayout.nextRva (s : StreamLayout) : Nat :=
  align4 (add32 (add32 s.rva s.data.length) s.trailingData.length)

def memoryRva : Nat :=
  align4 (minidumpHeaderSize + streamCount * minidumpDirectorySize)

namespace Emu

variable (emu : Emu)

def regions : List MemoryRegion := collectMemoryRegions emu

def modules : List ModuleInfo := collectModules emu emu.regions

def memoryStream : StreamLayout :=
  buildMemoryListStream emu.regions memoryRva

def memoryInfoStream : StreamLayout :=
  buildMemoryInfoListStream emu.regions emu.modules emu.memoryStream.nextRva

def systemInfoStream : StreamLayout :=
  buildSystemInfoStream emu emu.memoryInfoStream.nextRva

def moduleStream : StreamLayout :=
  buildModuleListStream emu.modules emu.systemInfoStream.nextRva

def threadStream : StreamLayout :=
  buildThreadListStream emu emu.regions (memoryLocations emu.regions memoryRva)
    emu.moduleStream.nextRva

def byPosition : List StreamLayout :=
  [emu.memoryStream, emu.memoryInfoStream, emu.systemInfoStream, emu.moduleStream,
    emu.threadStream]

def byDirectory : List StreamLayout :=
  [emu.threadStream, emu.moduleStream, emu.memoryStream, emu.systemInfoStream,
    emu.memoryInfoStream]

end Emu

def header (emu : Emu) : List UInt8 :=
  leBytes 4 0x504d444d ++ leBytes 4 0xa793 ++ leBytes 4 streamCount ++
    leBytes 4 minidumpHeaderSize ++ leBytes 4 0 ++ leBytes 4 (min emu.now u32Max) ++
    leBytes 8 minidumpFlagsFullMemory

def directoryForStream (s : StreamLayout) : List UInt8 :=
  leBytes 4 s.streamType ++ (leBytes 4 (min s.data.length u32Max) ++ leBytes 4 s.rva)

def appendStream (output : List UInt8) (s : StreamLayout) : Except String (List UInt8) :=
  if s.rva < output.length then .error "stream layout overlap while building minidump"
  else
    .ok (output ++ (List.replicate (s.rva - output.length) 0 ++ (s.data ++ s.trailingData)))

def writeToFile (emu : Emu) : Except String (List UInt8) :=
  emu.byPosition.foldlM appendStream (header emu ++ emu.byDirectory.flatMap directoryForStream)

end Mwemu.Minidump
