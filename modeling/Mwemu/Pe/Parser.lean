import Mwemu.Lib.Checked
import Mwemu.Pe.Image

/-!
# Parsing PE images

`PE32::parse` and `PE64::parse` with the functions on a parsed image that take the file again. The
readers of the header crate give zeros behind the end of the file, but the name of a section header,
the headers and a section found by its name are slices of the file, and the translation of addresses
adds 32-bit fields; these are what can panic. The two descriptor loops have no bound of their own:
they end because a descriptor behind the end of the file reads as zeros.
-/

namespace Mwemu.Pe

open Mwemu.Lib

inductive Panic where
  /-- a slice or an index outside its range -/
  | slice
  /-- a 32-bit addition that does not fit -/
  | overflow
  /-- a loop longer than its fuel -/
  | stuck
  deriving DecidableEq, Repr

def getSlice (raw : List UInt8) (start stop : Nat) : Except Panic (List UInt8) :=
  if start ≤ stop ∧ stop ≤ raw.length then .ok ((raw.take stop).drop start) else .error .slice

def Kind.translate (kind : Kind) (sections : List ImageSectionHeader) (vaddr : Nat) :
    Except Panic Nat :=
  match kind.vaddrToOff .dev sections vaddr with
  | some off => .ok off
  | none => .error .overflow

/-! ### Headers -/

structure ImageDosHeader where
  eMagic : Nat
  eLfanew : Nat
  deriving DecidableEq, Repr

def ImageDosHeader.size : Nat := 64

def ImageDosHeader.load (raw : List UInt8) (off : Nat) : ImageDosHeader :=
  { eMagic := readU16Le raw off, eLfanew := readU32Le raw (off + 60) }

structure ImageFileHeader where
  machine : Nat
  numberOfSections : Nat
  sizeOfOptionalHeader : Nat
  deriving DecidableEq, Repr

def ImageFileHeader.load (raw : List UInt8) (off : Nat) : ImageFileHeader :=
  { machine := readU16Le raw off
    numberOfSections := readU16Le raw (off + 2)
    sizeOfOptionalHeader := readU16Le raw (off + 16) }

def imageDosSignature : Nat := 0x5A4D
def imageNtSignature : Nat := 0x4550
def imageFileMachineI386 : Nat := 0x014c
def imageFileMachineAmd64 : Nat := 0x8664
def imageFileMachineArm64 : Nat := 0xAA64

def peMachineType (raw : List UInt8) : Option Nat :=
  if raw.length < ImageDosHeader.size then none
  else
    let dos := ImageDosHeader.load raw 0
    if dos.eMagic ≠ imageDosSignature then none
    else
      let ntOff := dos.eLfanew
      if raw.length < ntOff + 6 then none
      else if readU32Le raw ntOff ≠ imageNtSignature then none
      else some (readU16Le raw (ntOff + 4))

def PE32.isPe32 (raw : List UInt8) : Bool :=
  peMachineType raw = some imageFileMachineI386

def PE64.isPe64 (raw : List UInt8) : Bool :=
  peMachineType raw = some imageFileMachineAmd64 ∨ peMachineType raw = some imageFileMachineArm64

def imageNumberofDirectoryEntries : Nat := 16
def imageDirectoryEntryImport : Nat := 1
def imageDirectoryEntryTls : Nat := 9
def imageDirectoryEntryIat : Nat := 12
def imageDirectoryEntryDelayLoad : Nat := 13

def ImageDataDirectory.load (raw : List UInt8) (off : Nat) : ImageDataDirectory :=
  { virtualAddress := readU32Le raw off, size := readU32Le raw (off + 4) }

/-- The data directories, the first of them `pos` bytes into the optional header. -/
def loadDataDirectory (raw : List UInt8) (off pos : Nat) : List ImageDataDirectory :=
  (List.range imageNumberofDirectoryEntries).map fun i =>
    ImageDataDirectory.load raw (off + (pos + 8 * i))

def ImageOptionalHeader.load (raw : List UInt8) (off : Nat) : ImageOptionalHeader :=
  { imageBase := readU32Le raw (off + 28)
    sizeOfHeaders := readU32Le raw (off + 60)
    dataDirectory := loadDataDirectory raw off 96 }

def ImageOptionalHeader64.load (raw : List UInt8) (off : Nat) : ImageOptionalHeader :=
  { imageBase := readU64Le raw (off + 24)
    sizeOfHeaders := readU32Le raw (off + 60)
    dataDirectory := loadDataDirectory raw off 112 }

def Kind.loadOptionalHeader : Kind → List UInt8 → Nat → ImageOptionalHeader
  | .pe32 => ImageOptionalHeader.load
  | .pe64 => ImageOptionalHeader64.load

def ImageOptionalHeader.directory (opt : ImageOptionalHeader) (i : Nat) : Except Panic Nat :=
  match opt.dataDirectory[i]? with
  | some entry => .ok entry.virtualAddress
  | none => .error .slice

def ImageOptionalHeader.iatEntry (opt : ImageOptionalHeader) : Kind → Except Panic Nat
  | .pe32 => pure 0
  | .pe64 => opt.directory imageDirectoryEntryIat

/-! ### Sections -/

def imageSizeofShortName : Nat := 8
def sectionHeaderSz : Nat := 40

/-- The name is a slice of the file, the numbers are read with the readers. -/
def ImageSectionHeader.load (raw : List UInt8) (off : Nat) : Except Panic ImageSectionHeader := do
  let name ← getSlice raw off (off + imageSizeofShortName)
  let off2 := off + imageSizeofShortName
  pure
    { name
      virtualSize := readU32Le raw off2
      virtualAddress := readU32Le raw (off2 + 4)
      sizeOfRawData := readU32Le raw (off2 + 8)
      pointerToRawData := readU32Le raw (off2 + 12) }

def loadSections (raw : List UInt8) : Nat → Nat → Except Panic (List ImageSectionHeader)
  | 0, _ => pure []
  | count + 1, off => do
      let s ← ImageSectionHeader.load raw off
      let rest ← loadSections raw count (off + sectionHeaderSz)
      pure (s :: rest)

def fromUtf8 (bytes : List UInt8) : Option String :=
  String.fromUTF8? ⟨bytes.toArray⟩

def ImageSectionHeader.getName (s : ImageSectionHeader) : String :=
  let name := (fromUtf8 s.name).getD "err"
  String.ofList (name.toList.filter (· ≠ '\x00'))

def readCString (raw : List UInt8) (off : Nat) : String :=
  if raw.length ≤ off then ""
  else (fromUtf8 ((raw.drop off).takeWhile (· ≠ 0))).getD ""

/-! ### Descriptors -/

structure DelayLoadDirectory where
  attributes : Nat
  namePtr : Nat
  handle : Nat
  addressTable : Nat
  nameTable : Nat
  boundDelayImportTable : Nat
  unloadDelayImportTable : Nat
  tstamp : Nat
  name : String
  deriving DecidableEq, Repr

def DelayLoadDirectory.size : Nat := 32

def DelayLoadDirectory.load (raw : List UInt8) (off : Nat) : DelayLoadDirectory :=
  { attributes := readU32Le raw off
    namePtr := readU32Le raw (off + 4)
    handle := readU32Le raw (off + 8)
    addressTable := readU32Le raw (off + 12)
    nameTable := readU32Le raw (off + 16)
    boundDelayImportTable := readU32Le raw (off + 20)
    unloadDelayImportTable := readU32Le raw (off + 24)
    tstamp := readU32Le raw (off + 28)
    name := "" }

structure ImageImportDescriptor where
  originalFirstThunk : Nat
  timeDateStamp : Nat
  forwarderChain : Nat
  namePtr : Nat
  firstThunk : Nat
  name : String
  deriving DecidableEq, Repr

def ImageImportDescriptor.size : Nat := 20

def ImageImportDescriptor.load (raw : List UInt8) (off : Nat) : ImageImportDescriptor :=
  { originalFirstThunk := readU32Le raw off
    timeDateStamp := readU32Le raw (off + 4)
    forwarderChain := readU32Le raw (off + 8)
    namePtr := readU32Le raw (off + 12)
    firstThunk := readU32Le raw (off + 16)
    name := "" }

theorem byte_eq_zero {raw : List UInt8} {off : Nat} (hoff : raw.length ≤ off) :
    byte raw off = 0 := by
  rw [byte, List.getElem?_eq_none hoff]
  rfl

theorem readU32Le_eq_zero {raw : List UInt8} {off : Nat} (hoff : raw.length ≤ off) :
    readU32Le raw off = 0 := by
  have hbyte : ∀ i, byte raw (off + i) = 0 := fun i => byte_eq_zero (by omega)
  rw [readU32Le, hbyte, hbyte, hbyte, byte_eq_zero hoff]
  rfl

/-- A descriptor loop of `parse`: the shape of its descriptors, and what it does with a name. The
last field is what makes the loop end. -/
structure DescriptorLoop (δ : Type) where
  size : Nat
  load : List UInt8 → Nat → δ
  /-- the descriptor that ends the table -/
  terminates : δ → Bool
  namePtr : δ → Nat
  withName : δ → String → δ
  /-- a name behind the end of the file ends the loop -/
  checksName : Bool
  /-- a descriptor whose name is empty is not kept -/
  skipsEmpty : Bool
  size_pos : 0 < size
  terminates_of_le : ∀ {raw off}, raw.length ≤ off → terminates (load raw off) = true

def delayLoadLoop (checksName : Bool) : DescriptorLoop DelayLoadDirectory where
  size := DelayLoadDirectory.size
  load := DelayLoadDirectory.load
  terminates delayLoad := delayLoad.handle = 0 ∨ delayLoad.namePtr = 0
  namePtr := DelayLoadDirectory.namePtr
  withName delayLoad name := { delayLoad with name }
  checksName
  skipsEmpty := false
  size_pos := by decide
  terminates_of_le hoff := by
    rw [decide_eq_true_eq]
    exact .inl (readU32Le_eq_zero (by omega))

def importLoop (skipsEmpty : Bool) : DescriptorLoop ImageImportDescriptor where
  size := ImageImportDescriptor.size
  load := ImageImportDescriptor.load
  terminates iid := iid.namePtr = 0
  namePtr := ImageImportDescriptor.namePtr
  withName iid name := { iid with name }
  checksName := true
  skipsEmpty
  size_pos := by decide
  terminates_of_le hoff := by
    rw [decide_eq_true_eq]
    exact readU32Le_eq_zero (by omega)

/-- `PE32` looks for the end of the file only in the names of the import descriptors. -/
def Kind.delayLoadLoop : Kind → DescriptorLoop DelayLoadDirectory
  | .pe32 => Pe.delayLoadLoop false
  | .pe64 => Pe.delayLoadLoop true

def Kind.importLoop : Kind → DescriptorLoop ImageImportDescriptor
  | .pe32 => Pe.importLoop true
  | .pe64 => Pe.importLoop false

namespace DescriptorLoop

variable {δ : Type} (loop : DescriptorLoop δ) (kind : Kind) (sections : List ImageSectionHeader)
  (raw : List UInt8)

def keep (descriptor : δ) (name : String) (kept : List δ) : List δ :=
  if loop.skipsEmpty ∧ name = "" then kept else kept ++ [loop.withName descriptor name]

def pass (s : Nat × List δ) : Except Panic (LoopStep (Nat × List δ) Empty) := do
  let descriptor := loop.load raw s.1
  if loop.terminates descriptor then pure (.leave s)
  else
    let off ← kind.translate sections (loop.namePtr descriptor)
    if loop.checksName ∧ raw.length < off then pure (.leave s)
    else pure (.next (s.1 + loop.size, loop.keep descriptor (readCString raw off) s.2))

/-- The fuel is enough: a pass reads at or behind the end of the file, or gets closer to it. -/
def walk (off : Nat) : Except Panic (List δ) := do
  match ← whileLoop .stuck (fun _ => true) (loop.pass kind sections raw) (raw.length + 1)
      (off, []) with
  | .inl s => pure s.2
  | .inr r => nomatch r

/-- The descriptors of the directory at the address, none when it is not in the file. -/
def read (va : Nat) : Except Panic (List δ) :=
  if 0 < va then do
    let off ← kind.translate sections va
    if 0 < off then loop.walk kind sections raw off else pure []
  else pure []

end DescriptorLoop

/-! ### The image -/

/-- `PE32` or `PE64`. -/
structure Image where
  opt : ImageOptionalHeader
  sectHdr : List ImageSectionHeader
  delayLoadDir : List DelayLoadDirectory
  imageImportDescriptor : List ImageImportDescriptor
  deriving DecidableEq, Repr

def parse (kind : Kind) (raw : List UInt8) : Except Panic Image := do
  let dos := ImageDosHeader.load raw 0
  let fh := ImageFileHeader.load raw (dos.eLfanew + 4)
  let opt := kind.loadOptionalHeader raw (dos.eLfanew + 24)
  let sectHdr ← loadSections raw fh.numberOfSections
    (dos.eLfanew + 24 + fh.sizeOfOptionalHeader)
  let importVa ← opt.directory imageDirectoryEntryImport
  let delayLoadVa ← opt.directory imageDirectoryEntryDelayLoad
  let delayLoadDir ← kind.delayLoadLoop.read kind sectHdr raw delayLoadVa
  let imageImportDescriptor ← kind.importLoop.read kind sectHdr raw importVa
  pure { opt, sectHdr, delayLoadDir, imageImportDescriptor }

def PE32.parse : List UInt8 → Except Panic Image := Pe.parse .pe32

def PE64.parse : List UInt8 → Except Panic Image := Pe.parse .pe64

structure TlsDirectory where
  tlsDataStart : Nat
  tlsDataEnd : Nat
  tlsIndex : Nat
  tlsCallbacks : Nat
  zeroFillSize : Nat
  characteristic : Nat
  deriving DecidableEq, Repr

def TlsDirectory32.load (raw : List UInt8) (off : Nat) : TlsDirectory :=
  { tlsDataStart := readU32Le raw off
    tlsDataEnd := readU32Le raw (off + 4)
    tlsIndex := readU32Le raw (off + 8)
    tlsCallbacks := readU32Le raw (off + 12)
    zeroFillSize := readU32Le raw (off + 16)
    characteristic := readU32Le raw (off + 20) }

def TlsDirectory64.load (raw : List UInt8) (off : Nat) : TlsDirectory :=
  { tlsDataStart := readU64Le raw off
    tlsDataEnd := readU64Le raw (off + 8)
    tlsIndex := readU64Le raw (off + 16)
    tlsCallbacks := readU64Le raw (off + 24)
    zeroFillSize := readU32Le raw (off + 32)
    characteristic := readU32Le raw (off + 36) }

def Kind.loadTlsDirectory : Kind → List UInt8 → Nat → TlsDirectory
  | .pe32 => TlsDirectory32.load
  | .pe64 => TlsDirectory64.load

def Kind.tlsDirectorySize : Kind → Nat
  | .pe32 => 24
  | .pe64 => 40

def Kind.callbackRva (kind : Kind) (tlsCallbacks imageBase : Nat) : Nat :=
  (tlsCallbacks + (256 ^ kind.slotSize - imageBase)) % 256 ^ kind.slotSize % 2 ^ 32

namespace Image

variable (image : Image) (kind : Kind) (raw : List UInt8)

def headers : Except Panic (List UInt8) :=
  getSlice raw 0 image.opt.sizeOfHeaders

def numOfSections : Nat := image.sectHdr.length

def getSection (id : Nat) : Except Panic ImageSectionHeader :=
  match image.sectHdr[id]? with
  | some sect => .ok sect
  | none => .error .slice

/-- `PE64::get_section_ptr`, which looks at the end of the file after the sum. -/
def getSectionPtr64 (id : Nat) : Except Panic (List UInt8) :=
  if image.sectHdr.length < id then pure []
  else do
    let sect ← image.getSection id
    let off := sect.pointerToRawData
    let sz := sect.sizeOfRawData
    if raw.length < off + sz then
      if raw.length < off then pure [] else getSlice raw off raw.length
    else getSlice raw off (off + sz)

def getSectionPtr32 (id : Nat) : Except Panic (List UInt8) := do
  let sect ← image.getSection id
  let off := sect.pointerToRawData
  if raw.length ≤ off then pure []
  else
    let sz := min sect.sizeOfRawData (raw.length - off)
    getSlice raw off (off + sz)

def getSectionPtr : List UInt8 → Nat → Except Panic (List UInt8) :=
  match kind with
  | .pe32 => image.getSectionPtr32
  | .pe64 => image.getSectionPtr64

def getSectionVaddr (id : Nat) : Except Panic Nat := do
  let sect ← image.getSection id
  pure sect.virtualAddress

def getSectionPtrByName (name : String) : Except Panic (Option (List UInt8)) :=
  match image.sectHdr.find? fun sect => sect.getName = name with
  | none => pure none
  | some sect => do
      let bytes ← getSlice raw sect.pointerToRawData (sect.pointerToRawData + sect.virtualSize)
      pure (some bytes)

def callbackPass (_ : Nat) (s : Nat × List Nat) :
    Except Panic (LoopStep (Nat × List Nat) Empty) :=
  if raw.length < s.1 + kind.slotSize then pure (.leave s)
  else
    let callback := kind.readSlot raw s.1
    if callback = 0 then pure (.leave s)
    else if callback < image.opt.imageBase then pure (.leave s)
    else pure (.next (s.1 + kind.slotSize, s.2 ++ [callback]))

def readCallbacks (cbOff : Nat) : Except Panic (List Nat) := do
  match ← forRange (image.callbackPass kind raw) 0 64 (cbOff, []) with
  | .inl s => pure s.2
  | .inr r => nomatch r

def getTlsCallbacks : Except Panic (List Nat) :=
  if image.opt.dataDirectory.length < imageDirectoryEntryTls then pure []
  else do
    let entryTls ← image.opt.directory imageDirectoryEntryTls
    let _iat ← image.opt.iatEntry kind
    if entryTls = 0 then pure []
    else
      let tlsOff ← kind.translate image.sectHdr entryTls
      let tls := kind.loadTlsDirectory raw tlsOff
      if tls.tlsCallbacks = 0 then pure []
      else
        let cbOff ← kind.translate image.sectHdr
          (kind.callbackRva tls.tlsCallbacks image.opt.imageBase)
        image.readCallbacks kind raw cbOff

def getTlsDirectory : Except Panic (Option TlsDirectory) :=
  if image.opt.dataDirectory.length < imageDirectoryEntryTls then pure none
  else do
    let entryTls ← image.opt.directory imageDirectoryEntryTls
    if entryTls = 0 then pure none
    else
      let tlsOff ← kind.translate image.sectHdr entryTls
      if raw.length < tlsOff + kind.tlsDirectorySize then pure none
      else pure (some (kind.loadTlsDirectory raw tlsOff))

end Image

end Mwemu.Pe
