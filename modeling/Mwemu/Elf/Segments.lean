import Mwemu.Pe.Image

/-!
# Where the segments of an ELF image go

A segment is moved as a whole, by its first address; a virtual address is moved on its own. The two
disagree for a segment that reaches the base, and for the address zero.
-/

namespace Mwemu.Elf

structure Elf64Phdr where
  (pType pFlags pOffset pVaddr pFilesz pMemsz : Nat)

structure Elf64 where
  base : Nat
  bin : List UInt8
  elfPhdr : List Elf64Phdr

structure Perm where
  (read write execute : Bool)

/-- A map that the loader made, with the bytes of the file from `addr` on. -/
structure MappedSegment where
  phdr : Elf64Phdr
  start : Nat
  size : Nat
  perm : Perm
  addr : Nat
  data : List UInt8

def ptLoad : Nat := 1

def page : Nat := 0x1000

/-- An addition of `u64`; one that does not fit panics. -/
def add (a b : Nat) : Option Nat := Profile.dev.add 64 a b

namespace Elf64

def rebaseVaddr (elf : Elf64) (vaddr : Nat) : Option Nat :=
  if vaddr = 0 then some 0 else if vaddr < elf.base then add vaddr elf.base else some vaddr

def segVaddr (base : Nat) (phdr : Elf64Phdr) : Option Nat :=
  if phdr.pVaddr < base then add base phdr.pVaddr else some phdr.pVaddr

/-- One turn of `map_segments`, with a loader that maps where it is asked to. -/
def mapSegment (elf : Elf64) (base : Nat) (phdr : Elf64Phdr) : Option MappedSegment := do
  let vaddr ← segVaddr base phdr
  let mapStart := vaddr / page * page
  let memEnd ← add vaddr phdr.pMemsz
  let padded ← add memEnd page
  let mapEnd := (padded - 1) / page * page
  let fileEnd ← add phdr.pOffset phdr.pFilesz
  some { phdr := phdr
         start := mapStart
         size := max (mapEnd - mapStart) page
         perm := ⟨phdr.pFlags.testBit 2, true, phdr.pFlags.testBit 0⟩
         addr := mapStart + (vaddr - mapStart)
         data := (elf.bin.take fileEnd).drop phdr.pOffset }

def mapSegments (elf : Elf64) (base : Nat) : List Elf64Phdr → Option (List MappedSegment)
  | [] => some []
  | phdr :: phdrs =>
    if phdr.pType ≠ ptLoad then elf.mapSegments base phdrs
    else (elf.mapSegment base phdr).bind fun seg => (elf.mapSegments base phdrs).map (seg :: ·)

end Elf64

/-- The byte of `v` is at `a` in the map of its segment. -/
structure MappedSegment.Places (seg : MappedSegment) (v a : Nat) : Prop where
  addr : a = seg.addr + (v - seg.phdr.pVaddr)
  start : seg.start ≤ a
  stop : a < seg.start + seg.size

def MappedSegment.Agrees (elf : Elf64) (seg : MappedSegment) : Prop :=
  ∀ v, seg.phdr.pVaddr ≤ v → v < seg.phdr.pVaddr + seg.phdr.pMemsz →
    ∃ a, elf.rebaseVaddr v = some a ∧ seg.Places v a

/-- By how much the segment is moved. -/
def Elf64Phdr.bias (base : Nat) (phdr : Elf64Phdr) : Nat := if phdr.pVaddr < base then base else 0

/-- The segment and its last page end in the address space, and its bytes among the offsets. -/
structure Elf64Phdr.Fits (base : Nat) (phdr : Elf64Phdr) : Prop where
  mem : phdr.bias base + phdr.pVaddr + phdr.pMemsz + page < 2 ^ 64
  file : phdr.pOffset + phdr.pFilesz < 2 ^ 64

/-- The segment is empty, starts at or after the base, or is between zero and the base. -/
def Elf64Phdr.OneSided (base : Nat) (phdr : Elf64Phdr) : Prop :=
  phdr.pMemsz = 0 ∨ base ≤ phdr.pVaddr ∨ 0 < phdr.pVaddr ∧ phdr.pVaddr + phdr.pMemsz ≤ base

variable {elf : Elf64} {phdr : Elf64Phdr} {seg : MappedSegment} {v : Nat}

theorem add_eq_some {a b c : Nat} : add a b = some c ↔ a + b < 2 ^ 64 ∧ c = a + b := by
  rw [add, Profile.add, Option.ite_none_right_eq_some, Option.some.injEq, eq_comm (a := a + b)]

theorem segVaddr_eq_some {base vaddr : Nat} :
    Elf64.segVaddr base phdr = some vaddr ↔
      vaddr = phdr.bias base + phdr.pVaddr ∧ (phdr.pVaddr < base → vaddr < 2 ^ 64) := by
  rw [Elf64.segVaddr, Elf64Phdr.bias]
  split
  · rw [add_eq_some]
    omega
  · rw [Option.some.injEq]
    omega

theorem mapSegment_isSome (hfits : phdr.Fits elf.base) :
    ∃ seg, elf.mapSegment elf.base phdr = some seg := by
  obtain ⟨hmem, hfile⟩ := hfits
  simp only [Elf64.mapSegment, Option.bind_eq_bind, Option.bind_eq_some_iff, segVaddr_eq_some,
    add_eq_some]
  exact ⟨_, _, ⟨rfl, by omega⟩, _, ⟨by omega, rfl⟩, _, ⟨hmem, rfl⟩, _, ⟨hfile, rfl⟩, rfl⟩

theorem mapSegment_spec (hmap : elf.mapSegment elf.base phdr = some seg) :
    phdr.Fits elf.base ∧ seg.phdr = phdr ∧
      ∀ v, phdr.pVaddr ≤ v → v < phdr.pVaddr + phdr.pMemsz → ∀ a,
        seg.Places v a ↔ a = phdr.bias elf.base + v := by
  simp only [Elf64.mapSegment, Option.bind_eq_bind, Option.bind_eq_some_iff, segVaddr_eq_some,
    add_eq_some, Option.some.injEq] at hmap
  obtain ⟨vaddr, ⟨hvaddr, -⟩, memEnd, ⟨-, hmem⟩, padded, ⟨hlt, hpad⟩, fileEnd, ⟨hfile, -⟩, rfl⟩ :=
    hmap
  refine ⟨⟨by omega, hfile⟩, rfl, fun v hfirst hlast a => ⟨fun hplaces => ?_, fun ha => ?_⟩⟩
  · have haddr := hplaces.addr
    dsimp only [page] at haddr
    omega
  · constructor <;> dsimp only [page] at hpad ⊢ <;> omega

theorem rebaseVaddr_eq_iff (hfirst : phdr.pVaddr ≤ v) (hlt : phdr.bias elf.base + v < 2 ^ 64) :
    elf.rebaseVaddr v = some (phdr.bias elf.base + v) ↔
      elf.base ≤ phdr.pVaddr ∨ 0 < v ∧ v < elf.base := by
  rw [Elf64.rebaseVaddr]
  rw [Elf64Phdr.bias] at hlt ⊢
  grind [add_eq_some]

theorem mapSegment_agrees_iff (elf : Elf64) (phdr : Elf64Phdr) :
    (∃ seg, elf.mapSegment elf.base phdr = some seg ∧ seg.Agrees elf) ↔
      phdr.Fits elf.base ∧ phdr.OneSided elf.base := by
  have hagrees : ∀ seg, elf.mapSegment elf.base phdr = some seg →
      (seg.Agrees elf ↔ phdr.OneSided elf.base) := by
    intro seg hmap
    obtain ⟨⟨hmem, -⟩, hphdr, hplaces⟩ := mapSegment_spec hmap
    have hrebase : ∀ v, phdr.pVaddr ≤ v → v < phdr.pVaddr + phdr.pMemsz →
        ((∃ a, elf.rebaseVaddr v = some a ∧ seg.Places v a) ↔
          elf.base ≤ phdr.pVaddr ∨ 0 < v ∧ v < elf.base) := by
      intro v hfirst hlast
      simp only [hplaces v hfirst hlast, exists_eq_right]
      exact rebaseVaddr_eq_iff hfirst (by omega)
    rw [MappedSegment.Agrees, hphdr, Elf64Phdr.OneSided]
    constructor
    · intro hall
      by_contra hside
      -- the first byte is not at zero, and the last one is below the base
      have hzero := (hrebase _ le_rfl (by omega)).mp (hall _ le_rfl (by omega))
      have hlast := (hrebase (phdr.pVaddr + phdr.pMemsz - 1) (by omega) (by omega)).mp
        (hall _ (by omega) (by omega))
      omega
    · intro hside v hfirst hlast
      exact (hrebase v hfirst hlast).mpr (by omega)
  constructor
  · rintro ⟨seg, hmap, hseg⟩
    exact ⟨(mapSegment_spec hmap).1, (hagrees seg hmap).mp hseg⟩
  · rintro ⟨hfits, hside⟩
    obtain ⟨seg, hmap⟩ := mapSegment_isSome hfits
    exact ⟨seg, hmap, (hagrees seg hmap).mpr hside⟩

theorem mapSegments_forall_iff (holds : MappedSegment → Prop) (phdrs : List Elf64Phdr) :
    (∃ segs, elf.mapSegments elf.base phdrs = some segs ∧ ∀ seg ∈ segs, holds seg) ↔
      ∀ phdr ∈ phdrs, phdr.pType = ptLoad →
        ∃ seg, elf.mapSegment elf.base phdr = some seg ∧ holds seg := by
  induction phdrs with
  | nil => simp [Elf64.mapSegments]
  | cons phdr phdrs ih =>
    rw [Elf64.mapSegments, List.forall_mem_cons, ← ih]
    split
    · next hload => simp [hload]
    · next hload =>
      cases elf.mapSegment elf.base phdr <;> cases elf.mapSegments elf.base phdrs <;> simp_all

/-- The image is mapped, with its bytes where `rebase_vaddr` looks for them. -/
def Elf64.Agrees (elf : Elf64) : Prop :=
  ∃ segs, elf.mapSegments elf.base elf.elfPhdr = some segs ∧ ∀ seg ∈ segs, seg.Agrees elf

/-- Bytes are looked for where they are exactly if the segments fit and each of them is on one side
of the base, and not at zero. -/
theorem rebaseVaddr_agrees_iff (elf : Elf64) :
    elf.Agrees ↔ ∀ phdr ∈ elf.elfPhdr, phdr.pType = ptLoad →
      phdr.Fits elf.base ∧ phdr.OneSided elf.base := by
  rw [Elf64.Agrees, mapSegments_forall_iff]
  simp only [mapSegment_agrees_iff]

/-- The first segment of a position independent image starts at zero: it is at the base, and its
first byte is looked for at zero. -/
theorem first_byte_not_rebased : ¬ ∃ elf : Elf64, elf.base = 0x400000 ∧
    elf.elfPhdr = [⟨ptLoad, 5, 0, 0, 0x1000, 0x1000⟩] ∧ elf.Agrees := by
  rintro ⟨elf, hbase, hphdr, hagrees⟩
  rw [Elf64.Agrees, mapSegments_forall_iff, hphdr, List.forall_mem_singleton] at hagrees
  have hside := ((mapSegment_agrees_iff elf _).mp (hagrees rfl)).2
  rw [Elf64Phdr.OneSided, hbase] at hside
  exact absurd hside (by decide)

end Mwemu.Elf
