import Mwemu.Maps.Bytes

/-!
# PE images

The readers of the header crate, the parts of a parsed image that the loader looks at, and the
translation of relative virtual addresses to file offsets. The readers return zeros behind the end
of the file; the translation does 32-bit arithmetic on the fields of the section headers, which
panics or wraps around with the build profile.
-/

namespace Mwemu

/-- The build profiles differ in what an addition that does not fit its type does: it panics, or it
wraps around. -/
inductive Profile where
  | dev
  | release
  deriving DecidableEq, Repr

def Profile.add : Profile → Nat → Nat → Nat → Option Nat
  | dev, w, a, b => if a + b < 2 ^ w then some (a + b) else none
  | release, w, a, b => some ((a + b) % 2 ^ w)

namespace Pe

/-! ### Readers -/

def byte (raw : List UInt8) (off : Nat) : Nat :=
  (raw[off]?.getD 0).toNat

def readU16Le (raw : List UInt8) (off : Nat) : Nat :=
  byte raw (off + 1) <<< 8 ||| byte raw off

def readU32Le (raw : List UInt8) (off : Nat) : Nat :=
  byte raw (off + 3) <<< 24 ||| byte raw (off + 2) <<< 16 ||| byte raw (off + 1) <<< 8 |||
    byte raw off

def readU64Le (raw : List UInt8) (off : Nat) : Nat :=
  byte raw (off + 7) <<< 56 ||| byte raw (off + 6) <<< 48 ||| byte raw (off + 5) <<< 40 |||
    byte raw (off + 4) <<< 32 ||| byte raw (off + 3) <<< 24 ||| byte raw (off + 2) <<< 16 |||
    byte raw (off + 1) <<< 8 ||| byte raw off

/-! ### Images -/

/-- `PE32` or `PE64`. -/
inductive Kind where
  | pe32
  | pe64
  deriving DecidableEq, Repr

/-- The size of an address in the file. -/
def Kind.slotSize : Kind → Nat
  | .pe32 => 4
  | .pe64 => 8

def Kind.readSlot : Kind → List UInt8 → Nat → Nat
  | .pe32 => readU32Le
  | .pe64 => readU64Le

structure ImageDataDirectory where
  virtualAddress : Nat
  size : Nat
  deriving DecidableEq, Repr

structure ImageSectionHeader where
  name : List UInt8
  virtualSize : Nat
  virtualAddress : Nat
  sizeOfRawData : Nat
  pointerToRawData : Nat
  deriving DecidableEq, Repr

structure ImageOptionalHeader where
  imageBase : Nat
  sizeOfHeaders : Nat
  dataDirectory : List ImageDataDirectory
  deriving DecidableEq, Repr

def findSection (p : Profile) : List ImageSectionHeader → Nat → Option (Option ImageSectionHeader)
  | [], _ => some none
  | sect :: sections, vaddr =>
    if sect.virtualAddress ≤ vaddr then
      (p.add 32 sect.virtualAddress sect.virtualSize).bind fun stop =>
        if vaddr < stop then some (some sect) else findSection p sections vaddr
    else findSection p sections vaddr

def PE64.vaddrToOff (p : Profile) (sections : List ImageSectionHeader) (vaddr : Nat) : Option Nat :=
  (findSection p sections vaddr).bind fun found =>
    match found with
    | none => some 0
    | some sect =>
      let offsetWithinSection := vaddr - sect.virtualAddress
      if sect.sizeOfRawData ≤ offsetWithinSection then some 0
      else p.add 32 sect.pointerToRawData offsetWithinSection

/-- Unlike `PE64::vaddr_to_off`, this does not look at the size of the raw data. -/
def PE32.vaddrToOff (p : Profile) (sections : List ImageSectionHeader) (vaddr : Nat) : Option Nat :=
  (findSection p sections vaddr).bind fun found =>
    match found with
    | none => some 0
    | some sect => p.add 32 (vaddr - sect.virtualAddress) sect.pointerToRawData

def Kind.vaddrToOff : Kind → Profile → List ImageSectionHeader → Nat → Option Nat
  | .pe32 => PE32.vaddrToOff
  | .pe64 => PE64.vaddrToOff

def ImageSectionHeader.Contains (s : ImageSectionHeader) (rva : Nat) : Prop :=
  s.virtualAddress ≤ rva ∧ rva < s.virtualAddress + s.virtualSize

end Pe

end Mwemu
