import Mwemu.Pe.Parser

/-!
# When parsing a PE image is safe

`is_pe32` and `is_pe64` look at the signatures and the machine only, and nothing else is checked
before the file is sliced and the fields of the section headers are added. `Parsable` is what a file
has to meet besides: the section table and the headers are in the file, so is every section that a
name finds, and the addresses that are translated do not make an addition overflow. The descriptor
loops are bounded by the size of the file in any case.
-/

namespace Mwemu.Pe

open Mwemu.Lib List Nat

variable {kind : Kind} {raw : List UInt8}

theorem returns_getSlice_iff {start stop : Nat} :
    Returns (getSlice raw start stop) ↔ start ≤ stop ∧ stop ≤ raw.length := by
  unfold getSlice
  split
  case isTrue hin => exact iff_of_true (returns_ok _) hin
  case isFalse hout => exact iff_of_false (not_returns_error _) hout

def Terminates {α : Type} (m : Except Panic α) : Prop :=
  Meets (· ≠ .stuck) m fun _ => True

theorem Terminates.bind {α β : Type} {m : Except Panic α} {f : α → Except Panic β}
    (hm : Terminates m) (hf : ∀ a, Terminates (f a)) : Terminates (m >>= f) :=
  Meets.bind hm fun a _ => hf a

theorem terminates_getSlice (start stop : Nat) : Terminates (getSlice raw start stop) := by
  rw [getSlice]
  split
  · trivial
  · exact Panic.noConfusion

/-! ### Translations -/

/-- The section's raw data has the address; `PE32` does not ask for that. -/
def Kind.Backs : Kind → ImageSectionHeader → Nat → Prop
  | .pe32, _, _ => True
  | .pe64, s, vaddr => vaddr - s.virtualAddress < s.sizeOfRawData

/-- The additions made for the section fit 32 bits. -/
def Kind.Fits (kind : Kind) (s : ImageSectionHeader) (vaddr : Nat) : Prop :=
  s.virtualAddress ≤ vaddr →
    s.virtualAddress + s.virtualSize < 2 ^ 32 ∧
      (s.Contains vaddr → kind.Backs s vaddr →
        s.pointerToRawData + (vaddr - s.virtualAddress) < 2 ^ 32)

/-- The additions fit for every section up to the first that has the address. -/
def Kind.Translates (kind : Kind) (sections : List ImageSectionHeader) (vaddr : Nat) : Prop :=
  ∀ before s after, sections = before ++ s :: after → (∀ t ∈ before, ¬ t.Contains vaddr) →
    kind.Fits s vaddr

variable {vaddr : Nat}

theorem Kind.translates_nil : kind.Translates [] vaddr := by
  intro before s after hsplit
  simp at hsplit

variable {sections : List ImageSectionHeader}

theorem Kind.translates_cons_iff {s : ImageSectionHeader} : kind.Translates (s :: sections) vaddr ↔
      kind.Fits s vaddr ∧ (¬ s.Contains vaddr → kind.Translates sections vaddr) := by
  constructor
  · intro htranslates
    refine ⟨htranslates [] s sections rfl nofun, fun hnot before t after hsplit hbefore => ?_⟩
    refine htranslates (s :: before) t after (congrArg (s :: ·) hsplit) ?_
    exact forall_mem_cons.mpr ⟨hnot, hbefore⟩
  rintro ⟨hfits, hrest⟩ before t after hsplit hbefore
  cases before with
  | nil =>
    have hhead : s = t := (List.cons.inj hsplit).1
    exact hhead ▸ hfits
  | cons u before =>
    have hhead : s = u := (List.cons.inj hsplit).1
    have hnot : ¬ s.Contains vaddr := hhead ▸ hbefore u mem_cons_self
    exact hrest hnot before t after (List.cons.inj hsplit).2 fun v hv =>
      hbefore v (mem_cons_of_mem u hv)

theorem Kind.returns_translate_iff_isSome :
    Returns (kind.translate sections vaddr) ↔ (kind.vaddrToOff .dev sections vaddr).isSome := by
  unfold translate
  cases kind.vaddrToOff .dev sections vaddr with
  | none => exact iff_of_false (not_returns_error _) nofun
  | some off => exact iff_of_true (returns_ok off) rfl

theorem Kind.translate_eq_ok_iff {off : Nat} :
    kind.translate sections vaddr = .ok off ↔ kind.vaddrToOff .dev sections vaddr = some off := by
  unfold translate
  cases kind.vaddrToOff .dev sections vaddr with
  | none => exact ⟨nofun, nofun⟩
  | some a => rw [Except.ok.injEq, Option.some.injEq]

theorem Kind.terminates_translate (sections : List ImageSectionHeader) (vaddr : Nat) :
    Terminates (kind.translate sections vaddr) := by
  rw [translate]
  split
  · trivial
  · exact Panic.noConfusion

def Kind.sectionOffset : Kind → ImageSectionHeader → Nat → Option Nat
  | .pe32, s, vaddr => Profile.dev.add 32 (vaddr - s.virtualAddress) s.pointerToRawData
  | .pe64, s, vaddr =>
    if s.sizeOfRawData ≤ vaddr - s.virtualAddress then some 0
    else Profile.dev.add 32 s.pointerToRawData (vaddr - s.virtualAddress)

theorem Kind.vaddrToOff_eq : kind.vaddrToOff .dev sections vaddr =
      (findSection .dev sections vaddr).bind fun found => match found with
        | none => some 0
        | some s => kind.sectionOffset s vaddr := by
  cases kind <;> rfl

theorem Kind.isSome_sectionOffset_iff {s : ImageSectionHeader} :
    (kind.sectionOffset s vaddr).isSome ↔
      (kind.Backs s vaddr → s.pointerToRawData + (vaddr - s.virtualAddress) < 2 ^ 32) := by
  cases kind with
  | pe32 =>
    rw [sectionOffset, Profile.add, Nat.add_comm]
    split <;> simp_all [Backs]
  | pe64 =>
    rw [sectionOffset, Profile.add, Backs]
    split
    · exact iff_of_true rfl (by omega)
    · split
      · exact iff_of_true rfl (by omega)
      · exact iff_of_false (by simp) (by omega)

theorem Kind.returns_translate_iff :
    Returns (kind.translate sections vaddr) ↔ kind.Translates sections vaddr := by
  rw [returns_translate_iff_isSome]
  induction sections with
  | nil =>
    rw [vaddrToOff_eq]
    exact iff_of_true rfl translates_nil
  | cons s sections ih =>
    rw [translates_cons_iff, ← ih, vaddrToOff_eq, findSection, Fits]
    by_cases hlow : s.virtualAddress ≤ vaddr
    · by_cases hfit : s.virtualAddress + s.virtualSize < 2 ^ 32
      · rw [if_pos hlow, Profile.add, if_pos hfit, Option.bind_some]
        by_cases hin : vaddr < s.virtualAddress + s.virtualSize
        · have hcontains : s.Contains vaddr := ⟨hlow, hin⟩
          rw [if_pos hin, Option.bind_some, isSome_sectionOffset_iff]
          simp only [hlow, hfit, hcontains, true_and, forall_const, not_true, false_implies,
            and_true]
        · have hcontains : ¬ s.Contains vaddr := fun h => hin h.2
          rw [if_neg hin, ← vaddrToOff_eq]
          simp only [hfit, hcontains, false_implies, and_true, implies_true, true_and,
            not_false_eq_true, forall_const]
      · rw [if_pos hlow, Profile.add, if_neg hfit]
        refine iff_of_false (by simp) fun hright => hfit (hright.1 hlow).1
    · have hcontains : ¬ s.Contains vaddr := fun h => hlow h.1
      rw [if_neg hlow, ← vaddrToOff_eq]
      simp only [hlow, hcontains, false_implies, true_and, not_false_eq_true, forall_const]

/-! ### The section table -/

def sectionAt (raw : List UInt8) (off : Nat) : ImageSectionHeader :=
  { name := (raw.take (off + 8)).drop off
    virtualSize := readU32Le raw (off + 8)
    virtualAddress := readU32Le raw (off + 12)
    sizeOfRawData := readU32Le raw (off + 16)
    pointerToRawData := readU32Le raw (off + 20) }

theorem ImageSectionHeader.load_eq (off : Nat) : ImageSectionHeader.load raw off =
      if off + 8 ≤ raw.length then .ok (sectionAt raw off) else .error .slice := by
  rw [ImageSectionHeader.load, getSlice]
  by_cases hfit : off + 8 ≤ raw.length
  · rw [if_pos hfit, if_pos ⟨le_add_right _ _, hfit⟩]
    rfl
  · rw [if_neg hfit, if_neg fun h => hfit h.2]
    rfl

/-- The names of `count` headers from `off` on are in the file. -/
def TableFits (raw : List UInt8) (count off : Nat) : Prop :=
  ∀ i < count, off + 40 * i + 8 ≤ raw.length

def sectionsFrom (raw : List UInt8) (count off : Nat) : List ImageSectionHeader :=
  (List.range count).map fun i => sectionAt raw (off + 40 * i)

theorem sectionsFrom_succ (count off : Nat) :
    sectionsFrom raw (count + 1) off = sectionAt raw off :: sectionsFrom raw count (off + 40) := by
  rw [sectionsFrom, range_succ_eq_map, map_cons, map_map]
  refine congrArg (sectionAt raw off :: ·) (map_congr_left fun i _ => ?_)
  exact congrArg (sectionAt raw) (by omega)

theorem tableFits_succ_iff (count off : Nat) :
    TableFits raw (count + 1) off ↔ off + 8 ≤ raw.length ∧ TableFits raw count (off + 40) := by
  constructor
  · intro hfits
    refine ⟨hfits 0 (by omega), fun i hi => ?_⟩
    have := hfits (i + 1) (by omega)
    omega
  rintro ⟨hhead, hrest⟩ i hi
  cases i with
  | zero => exact hhead
  | succ i =>
    have := hrest i (by omega)
    omega

theorem loadSections_eq_ok_iff (count off : Nat) (sections : List ImageSectionHeader) :
    loadSections raw count off = .ok sections ↔
      TableFits raw count off ∧ sections = sectionsFrom raw count off := by
  induction count generalizing off sections with
  | zero =>
    have hfits : TableFits raw 0 off := fun i hi => absurd hi (not_lt_zero i)
    rw [and_iff_right hfits]
    exact ⟨fun h => (Except.ok.inj h).symm, fun h => congrArg Except.ok h.symm⟩
  | succ count ih =>
    rw [loadSections, ImageSectionHeader.load_eq, tableFits_succ_iff, sectionsFrom_succ]
    by_cases hhead : off + 8 ≤ raw.length
    · rw [if_pos hhead, and_iff_right hhead]
      simp only [bind_eq_ok_iff, Except.ok.injEq, exists_eq_left', sectionHeaderSz, ih]
      constructor
      · rintro ⟨rest, ⟨hfits, rfl⟩, hcons⟩
        exact ⟨hfits, (Except.ok.inj hcons).symm⟩
      · rintro ⟨hfits, rfl⟩
        exact ⟨_, ⟨hfits, rfl⟩, rfl⟩
    · rw [if_neg hhead]
      exact ⟨nofun, fun h => absurd h.1.1 hhead⟩

theorem terminates_loadSections (count off : Nat) : Terminates (loadSections raw count off) := by
  induction count generalizing off with
  | zero => trivial
  | succ count ih =>
    have hload : Terminates (ImageSectionHeader.load raw off) :=
      (terminates_getSlice _ _).bind fun _ => trivial
    exact hload.bind fun s => (ih _).bind fun rest => trivial

/-! ### Descriptor loops -/

namespace DescriptorLoop

variable {δ : Type} (loop : DescriptorLoop δ) (kind : Kind) (sections : List ImageSectionHeader)
  (raw : List UInt8) (off : Nat)

def descriptor (k : Nat) : δ := loop.load raw (off + k * loop.size)

/-- The loop goes on after the `k`-th descriptor. -/
def GoesOn (k : Nat) : Prop :=
  loop.terminates (loop.descriptor raw off k) = false ∧
    ∃ nameOff, kind.vaddrToOff .dev sections (loop.namePtr (loop.descriptor raw off k)) =
      some nameOff ∧ (loop.checksName = true → nameOff ≤ raw.length)

/-- The address of every name that the loop gets to is translated without an overflow. -/
def NamesTranslate : Prop :=
  ∀ k, (∀ j < k, loop.GoesOn kind sections raw off j) →
    loop.terminates (loop.descriptor raw off k) = false →
      kind.Translates sections (loop.namePtr (loop.descriptor raw off k))

/-- The address of the directory is translated without an overflow, and so are those of the names of
its descriptors. -/
def DirectoryTranslates (va : Nat) : Prop :=
  0 < va → kind.Translates sections va ∧
    ∀ off, kind.vaddrToOff .dev sections va = some off → 0 < off →
      loop.NamesTranslate kind sections raw off

variable {loop kind sections raw off} {s t : Nat × List δ}

theorem returns_pass_iff {s : Nat × List δ} : Returns (loop.pass kind sections raw s) ↔
      (loop.terminates (loop.load raw s.1) = false →
        kind.Translates sections (loop.namePtr (loop.load raw s.1))) := by
  rw [pass, returns_ite_iff, and_iff_right fun _ => returns_pure _, Bool.not_eq_true,
    ← Kind.returns_translate_iff, returns_bind_iff]
  refine imp_congr_right fun _ => exists_congr fun nameOff => and_iff_left ?_
  split
  · exact returns_pure _
  · exact returns_pure _

theorem length_keep_le (descriptor : δ) (name : String) (kept : List δ) :
    (loop.keep descriptor name kept).length ≤ kept.length + 1 := by
  rw [keep]
  split
  · exact le_succ _
  · exact (length_append).le

/-- A pass that is followed by another: the descriptor does not end the table, and its name is not
behind the end of the file where that is checked. -/
theorem pass_next (hpass : loop.pass kind sections raw s = .ok (.next t)) :
    loop.terminates (loop.load raw s.1) = false ∧
      (∃ nameOff, kind.vaddrToOff .dev sections (loop.namePtr (loop.load raw s.1)) = some nameOff ∧
        (loop.checksName = true → nameOff ≤ raw.length)) ∧
      t.1 = s.1 + loop.size ∧ t.2.length ≤ s.2.length + 1 := by
  rw [pass] at hpass
  by_cases hends : loop.terminates (loop.load raw s.1)
  · rw [if_pos hends] at hpass
    cases hpass
  rw [if_neg hends, bind_eq_ok_iff] at hpass
  obtain ⟨nameOff, hname, hpass⟩ := hpass
  split at hpass
  case isTrue hout => cases hpass
  case isFalse hin =>
    cases hpass
    refine ⟨by simpa using hends, ⟨nameOff, Kind.translate_eq_ok_iff.mp hname, ?_⟩, rfl,
      length_keep_le _ _ _⟩
    exact fun hchecks => by_contra fun hlong => hin ⟨hchecks, by omega⟩

theorem pass_leave (hpass : loop.pass kind sections raw s = .ok (.leave t)) : t = s := by
  rw [pass] at hpass
  by_cases hends : loop.terminates (loop.load raw s.1)
  · rw [if_pos hends] at hpass
    cases hpass
    rfl
  rw [if_neg hends, bind_eq_ok_iff] at hpass
  obtain ⟨nameOff, -, hpass⟩ := hpass
  split at hpass
  · cases hpass
    rfl
  · cases hpass

variable {k : Nat} {kept : List δ}

theorem exists_pass_next (hgoes : loop.GoesOn kind sections raw off k) :
    ∃ kept', loop.pass kind sections raw (off + k * loop.size, kept) =
      .ok (.next (off + (k + 1) * loop.size, kept')) := by
  obtain ⟨hends, nameOff, hname, hchecks⟩ := hgoes
  rw [descriptor] at hends hname
  refine ⟨loop.keep (loop.load raw (off + k * loop.size)) (readCString raw nameOff) kept, ?_⟩
  have hin : ¬ (loop.checksName = true ∧ raw.length < nameOff) :=
    fun h => absurd (hchecks h.1) (by omega)
  rw [pass, if_neg (by simp [hends]), bind_eq_ok_iff]
  refine ⟨nameOff, Kind.translate_eq_ok_iff.mpr hname, ?_⟩
  rw [if_neg hin, Nat.succ_mul, ← Nat.add_assoc]
  rfl

/-- The state before the `k`-th descriptor is loaded. -/
structure At (loop : DescriptorLoop δ) (kind : Kind) (sections : List ImageSectionHeader)
    (raw : List UInt8) (off : Nat) (k : Nat) (s : Nat × List δ) : Prop where
  offset : s.1 = off + k * loop.size
  goesOn : ∀ j < k, loop.GoesOn kind sections raw off j
  kept : s.2.length ≤ k

theorem At.next (hat : At loop kind sections raw off k s)
    (hpass : loop.pass kind sections raw s = .ok (.next t)) :
    At loop kind sections raw off (k + 1) t := by
  obtain ⟨hends, hname, hoff, hkept⟩ := pass_next hpass
  rw [hat.offset] at hends hname
  refine ⟨?_, ?_, ?_⟩
  · rw [hoff, hat.offset, Nat.succ_mul, Nat.add_assoc]
  · exact forall_lt_succ_right.mpr ⟨hat.goesOn, hends, hname⟩
  · have := hat.kept
    omega

theorem GoesOn.lt_length (hgoes : loop.GoesOn kind sections raw off k) :
    off + k * loop.size < raw.length := by
  by_contra hout
  have hends := loop.terminates_of_le (Nat.le_of_not_lt hout)
  exact absurd (hends.symm.trans hgoes.1) nofun

theorem At.kept_le {s : Nat × List δ} (hat : At loop kind sections raw off k s) :
    s.2.length ≤ raw.length / loop.size + 1 := by
  cases k with
  | zero => exact le_trans hat.kept (zero_le _)
  | succ k =>
    have hlt := (hat.goesOn k (lt_succ_self k)).lt_length
    have hle : k ≤ raw.length / loop.size := (le_div_iff_mul_le loop.size_pos).mpr (by omega)
    have := hat.kept
    omega

theorem at_zero : At loop kind sections raw off 0 (off, []) where
  offset := by rw [Nat.zero_mul, Nat.add_zero]
  goesOn := nofun
  kept := le_refl 0

theorem visits_at {t : Nat × List δ}
    (hvisit : Visits (fun _ => true) (loop.pass kind sections raw) (off, []) t) :
    ∃ k, At loop kind sections raw off k t := by
  induction hvisit with
  | start => exact ⟨0, at_zero⟩
  | next _ _ hpass ih =>
    obtain ⟨k, hat⟩ := ih
    exact ⟨k + 1, hat.next hpass⟩

theorem exists_visits (hgoes : ∀ j < k, loop.GoesOn kind sections raw off j) :
    ∃ kept, Visits (fun _ => true) (loop.pass kind sections raw) (off, [])
      (off + k * loop.size, kept) := by
  induction k with
  | zero =>
    refine ⟨[], ?_⟩
    rw [Nat.zero_mul]
    exact .start _
  | succ k ih =>
    obtain ⟨kept, hvisit⟩ := ih fun j hj => hgoes j (lt_succ_of_lt hj)
    obtain ⟨kept', hpass⟩ := exists_pass_next (hgoes k (lt_succ_self k))
    exact ⟨kept', .next hvisit rfl hpass⟩

theorem pass_next_lt (hpass : loop.pass kind sections raw s = .ok (.next t)) :
    raw.length - t.1 < raw.length - s.1 := by
  obtain ⟨hends, -, hoff, -⟩ := pass_next hpass
  have hlt : s.1 < raw.length := by
    by_contra hout
    exact absurd ((loop.terminates_of_le (Nat.le_of_not_lt hout)).symm.trans hends) nofun
  have := loop.size_pos
  omega

theorem terminates_pass (s : Nat × List δ) : Terminates (loop.pass kind sections raw s) := by
  rw [pass]
  split
  · trivial
  · refine (Kind.terminates_translate _ _).bind fun nameOff => ?_
    split <;> trivial

theorem returns_walk_iff :
    Returns (loop.walk kind sections raw off) ↔ loop.NamesTranslate kind sections raw off := by
  have hwalk : Returns (loop.walk kind sections raw off) ↔
      Returns (whileLoop .stuck (fun _ => true) (loop.pass kind sections raw) (raw.length + 1)
        (off, [])) := by
    rw [walk, returns_bind_iff]
    refine exists_congr fun r => and_iff_left ?_
    cases r with
    | inl s => exact returns_pure _
    | inr r => exact nomatch r
  rw [hwalk, returns_whileLoop_iff (fun s => raw.length - s.1)]
  · simp only [returns_pass_iff, forall_const]
    constructor
    · intro hvisits k hgoes hends
      obtain ⟨kept, hvisit⟩ := exists_visits hgoes
      exact hvisits _ hvisit hends
    · intro hnames t hvisit hends
      obtain ⟨k, hat⟩ := visits_at hvisit
      rw [hat.offset] at hends ⊢
      exact hnames k hat.goesOn hends
  · exact lt_succ_of_le (sub_le _ _)
  · exact fun t u _ _ => pass_next_lt

theorem meets_walk : Meets (· ≠ .stuck) (loop.walk kind sections raw off)
    fun kept => kept.length ≤ raw.length / loop.size + 1 := by
  have hmeets : Meets (· ≠ .stuck) (whileLoop .stuck (fun _ => true)
      (loop.pass kind sections raw) (raw.length + 1) (off, []))
      (Sum.elim (fun s => s.2.length ≤ raw.length / loop.size + 1) fun _ => True) := by
    refine meets_whileLoop (fun s => raw.length - s.1)
      (fun s => ∃ k, At loop kind sections raw off k s)
      ⟨0, at_zero⟩ (lt_succ_of_le (sub_le _ _)) (fun _ _ h => absurd h nofun) ?_
    rintro s - ⟨k, hat⟩ -
    have hterminates : Terminates (loop.pass kind sections raw s) := terminates_pass s
    cases hpass : loop.pass kind sections raw s with
    | error e =>
      rw [hpass] at hterminates
      exact hterminates
    | ok flow =>
      cases flow with
      | next t => exact ⟨⟨k + 1, hat.next hpass⟩, pass_next_lt hpass⟩
      | leave t =>
        have hsame : t = s := pass_leave hpass
        exact hsame ▸ hat.kept_le
      | ret r => trivial
  refine hmeets.bind fun r hr => ?_
  cases r with
  | inl s => exact hr
  | inr r => exact nomatch r

theorem returns_read_iff {va : Nat} :
    Returns (loop.read kind sections raw va) ↔ loop.DirectoryTranslates kind sections raw va := by
  rw [read, DirectoryTranslates, returns_ite_iff, and_iff_left fun _ => returns_pure _,
    returns_bind_iff_forall, Kind.returns_translate_iff]
  refine imp_congr_right fun _ => and_congr_right fun _ => forall_congr' fun off => ?_
  rw [Kind.translate_eq_ok_iff, returns_ite_iff, and_iff_left fun _ => returns_pure _,
    returns_walk_iff]

theorem meets_read (va : Nat) : Meets (· ≠ .stuck) (loop.read kind sections raw va)
    fun kept => kept.length ≤ raw.length / loop.size + 1 := by
  rw [read]
  split
  · refine Meets.bind (Kind.terminates_translate _ _) fun off _ => ?_
    split
    · exact meets_walk
    · exact zero_le _
  · exact zero_le _

theorem length_read_le {va : Nat} (hread : loop.read kind sections raw va = .ok kept) :
    kept.length ≤ raw.length / loop.size + 1 := by
  have hmeets : Meets (· ≠ .stuck) (loop.read kind sections raw va) _ := meets_read va
  rw [hread] at hmeets
  exact hmeets

end DescriptorLoop

/-! ### The fields of a file -/

def ntOff (raw : List UInt8) : Nat := (ImageDosHeader.load raw 0).eLfanew

def fileHeader (raw : List UInt8) : ImageFileHeader := ImageFileHeader.load raw (ntOff raw + 4)

def Kind.optionalHeader (kind : Kind) (raw : List UInt8) : ImageOptionalHeader :=
  kind.loadOptionalHeader raw (ntOff raw + 24)

def sectionTableOff (raw : List UInt8) : Nat :=
  ntOff raw + 24 + (fileHeader raw).sizeOfOptionalHeader

def sectionTable (raw : List UInt8) : List ImageSectionHeader :=
  sectionsFrom raw (fileHeader raw).numberOfSections (sectionTableOff raw)

def Kind.directoryVa (kind : Kind) (raw : List UInt8) (i : Nat) : Nat :=
  ((kind.optionalHeader raw).dataDirectory[i]?.getD ⟨0, 0⟩).virtualAddress

theorem Kind.length_dataDirectory (kind : Kind) (raw : List UInt8) :
    (kind.optionalHeader raw).dataDirectory.length = 16 := by
  cases kind <;> exact (length_map _).trans length_range

theorem Kind.directory_eq {i : Nat} (hi : i < 16) :
    (kind.optionalHeader raw).directory i = .ok (kind.directoryVa raw i) := by
  rw [← kind.length_dataDirectory raw] at hi
  rw [ImageOptionalHeader.directory, directoryVa, List.getElem?_eq_getElem hi]
  rfl

theorem Kind.tls_entry (kind : Kind) (raw : List UInt8) :
    ¬ (kind.optionalHeader raw).dataDirectory.length < imageDirectoryEntryTls ∧
      (kind.optionalHeader raw).directory imageDirectoryEntryTls =
        .ok (kind.directoryVa raw imageDirectoryEntryTls) := by
  refine ⟨?_, directory_eq (by decide)⟩
  rw [length_dataDirectory]
  decide

theorem parse_eq_ok_iff {image : Image} : parse kind raw = .ok image ↔
      TableFits raw (fileHeader raw).numberOfSections (sectionTableOff raw) ∧
      image.opt = kind.optionalHeader raw ∧ image.sectHdr = sectionTable raw ∧
      kind.delayLoadLoop.read kind (sectionTable raw) raw
        (kind.directoryVa raw imageDirectoryEntryDelayLoad) = .ok image.delayLoadDir ∧
      kind.importLoop.read kind (sectionTable raw) raw
        (kind.directoryVa raw imageDirectoryEntryImport) = .ok image.imageImportDescriptor := by
  have himport : (kind.optionalHeader raw).directory imageDirectoryEntryImport = _ :=
    Kind.directory_eq (by decide)
  have hdelay : (kind.optionalHeader raw).directory imageDirectoryEntryDelayLoad = _ :=
    Kind.directory_eq (by decide)
  have hunfold : parse kind raw = (do
      let sectHdr ← loadSections raw (fileHeader raw).numberOfSections (sectionTableOff raw)
      let importVa ← (kind.optionalHeader raw).directory imageDirectoryEntryImport
      let delayLoadVa ← (kind.optionalHeader raw).directory imageDirectoryEntryDelayLoad
      let delayLoadDir ← kind.delayLoadLoop.read kind sectHdr raw delayLoadVa
      let imageImportDescriptor ← kind.importLoop.read kind sectHdr raw importVa
      pure ⟨kind.optionalHeader raw, sectHdr, delayLoadDir, imageImportDescriptor⟩) := rfl
  rw [hunfold, himport, hdelay]
  simp only [bind_eq_ok_iff, loadSections_eq_ok_iff, Except.ok.injEq, exists_eq_left']
  constructor
  · rintro ⟨sections, ⟨hfits, rfl⟩, delays, hdelays, imports, himports, hpure⟩
    cases hpure
    exact ⟨hfits, rfl, rfl, hdelays, himports⟩
  rintro ⟨hfits, hopt, hsect, hdelays, himports⟩
  obtain ⟨opt, sectHdr, delays, imports⟩ := image
  cases hopt
  cases hsect
  exact ⟨_, ⟨hfits, rfl⟩, delays, hdelays, imports, himports, rfl⟩

theorem terminates_parse : Terminates (parse kind raw) := by
  have hdirectory : ∀ i, Terminates ((kind.optionalHeader raw).directory i) := by
    intro i
    rw [ImageOptionalHeader.directory]
    split
    · trivial
    · exact Panic.noConfusion
  refine (terminates_loadSections _ _).bind fun sectHdr => ?_
  refine (hdirectory _).bind fun importVa => (hdirectory _).bind fun delayLoadVa => ?_
  refine Meets.bind (DescriptorLoop.meets_read _) fun delays _ => ?_
  exact Meets.bind (DescriptorLoop.meets_read _) fun imports _ => trivial

/-! ### The functions on an image -/

namespace Image

variable {image : Image}

theorem returns_headers_iff :
    Returns (image.headers raw) ↔ image.opt.sizeOfHeaders ≤ raw.length := by
  rw [headers, returns_getSlice_iff, and_iff_right (zero_le _)]

variable {id : Nat}

theorem getSection_eq (hid : id < image.numOfSections) :
    image.getSection id = .ok (image.sectHdr.get ⟨id, hid⟩) := by
  rw [getSection, List.getElem?_eq_getElem hid]
  rfl

theorem returns_getSectionVaddr (hid : id < image.numOfSections) :
    Returns (image.getSectionVaddr id) := by
  rw [getSectionVaddr, returns_bind_pure_iff, getSection_eq hid]
  exact returns_ok _

theorem returns_getSectionPtr (hid : id < image.numOfSections) :
    Returns (image.getSectionPtr kind raw id) := by
  cases kind with
  | pe32 =>
    rw [getSectionPtr, getSectionPtr32, returns_bind_iff]
    refine ⟨_, getSection_eq hid, ?_⟩
    simp only
    split
    case isTrue hout => exact returns_pure _
    case isFalse hin => exact returns_getSlice_iff.mpr ⟨le_add_right _ _, by omega⟩
  | pe64 =>
    have hvalid : ¬ image.sectHdr.length < id := lt_asymm hid
    rw [getSectionPtr, getSectionPtr64, if_neg hvalid, returns_bind_iff]
    refine ⟨_, getSection_eq hid, ?_⟩
    simp only
    split
    case isTrue hlong =>
        split
        case isTrue hout => exact returns_pure _
        case isFalse hin => exact returns_getSlice_iff.mpr ⟨by omega, le_refl _⟩
    case isFalse hfit => exact returns_getSlice_iff.mpr ⟨le_add_right _ _, by omega⟩

theorem returns_getSectionPtrByName_iff {name : String} :
    Returns (image.getSectionPtrByName raw name) ↔
      ∀ sect, (image.sectHdr.find? fun sect => sect.getName = name) = some sect →
        sect.pointerToRawData + sect.virtualSize ≤ raw.length := by
  rw [getSectionPtrByName]
  split
  case h_1 hnone =>
      refine iff_of_true (returns_pure _) fun sect hsome => ?_
      rw [hnone] at hsome
      cases hsome
  case h_2 found hfound =>
      rw [returns_bind_pure_iff, returns_getSlice_iff, and_iff_right (le_add_right _ _)]
      rw [hfound]
      simp only [Option.some.injEq, forall_eq']

theorem returns_readCallbacks (cbOff : Nat) : Returns (image.readCallbacks kind raw cbOff) := by
  have hmeets : Meets (fun _ => False) (forRange (image.callbackPass kind raw) 0 64 (cbOff, []))
      (Sum.elim (fun _ => True) fun _ => True) := by
    refine meets_forRange (fun _ _ => True) trivial (fun _ _ => trivial) fun i s _ _ _ => ?_
    rw [callbackPass]
    split
    · exact trivial
    · simp only
      split
      · exact trivial
      · split <;> exact trivial
  have hreturns := returns_iff_meets.mpr (hmeets.mono fun _ _ => trivial)
  rw [readCallbacks, returns_bind_iff]
  obtain ⟨r, hr⟩ := hreturns
  refine ⟨r, hr, ?_⟩
  cases r with
  | inl s => exact returns_pure _
  | inr r => exact nomatch r

end Image

/-! ### The whole of it -/

/-- The TLS directory and its table of callbacks are translated without an overflow. -/
def Kind.TlsTranslates (kind : Kind) (raw : List UInt8) : Prop :=
  kind.directoryVa raw imageDirectoryEntryTls ≠ 0 →
    kind.Translates (sectionTable raw) (kind.directoryVa raw imageDirectoryEntryTls) ∧
    ∀ tlsOff, kind.vaddrToOff .dev (sectionTable raw)
        (kind.directoryVa raw imageDirectoryEntryTls) = some tlsOff →
      (kind.loadTlsDirectory raw tlsOff).tlsCallbacks ≠ 0 →
        kind.Translates (sectionTable raw)
          (kind.callbackRva (kind.loadTlsDirectory raw tlsOff).tlsCallbacks
            (kind.optionalHeader raw).imageBase)

/-- What the signatures do not say about a file, and the parser does not check. -/
structure Parsable (kind : Kind) (raw : List UInt8) : Prop where
  table : TableFits raw (fileHeader raw).numberOfSections (sectionTableOff raw)
  headers : (kind.optionalHeader raw).sizeOfHeaders ≤ raw.length
  /-- the first section of each name is in the file with its virtual size -/
  names : ∀ name sect, ((sectionTable raw).find? fun sect => sect.getName = name) = some sect →
    sect.pointerToRawData + sect.virtualSize ≤ raw.length
  delayLoads : kind.delayLoadLoop.DirectoryTranslates kind (sectionTable raw) raw
    (kind.directoryVa raw imageDirectoryEntryDelayLoad)
  imports : kind.importLoop.DirectoryTranslates kind (sectionTable raw) raw
    (kind.directoryVa raw imageDirectoryEntryImport)
  tls : kind.TlsTranslates raw

/-- None of the functions panics on the image, and it has no more descriptors than the file has
room for. -/
structure Image.Safe (image : Image) (kind : Kind) (raw : List UInt8) : Prop where
  headers : Returns (image.headers raw)
  sectionPtr : ∀ id < image.numOfSections, Returns (image.getSectionPtr kind raw id)
  sectionVaddr : ∀ id < image.numOfSections, Returns (image.getSectionVaddr id)
  sectionPtrByName : ∀ name, Returns (image.getSectionPtrByName raw name)
  tlsCallbacks : Returns (image.getTlsCallbacks kind raw)
  tlsDirectory : Returns (image.getTlsDirectory kind raw)
  imports : image.imageImportDescriptor.length ≤ raw.length / 20 + 1
  delayLoads : image.delayLoadDir.length ≤ raw.length / 32 + 1

section Tls

variable {image : Image} (hopt : image.opt = kind.optionalHeader raw)
  (hsect : image.sectHdr = sectionTable raw)

include hopt hsect

theorem Image.returns_getTlsDirectory_iff : Returns (image.getTlsDirectory kind raw) ↔
      (kind.directoryVa raw imageDirectoryEntryTls ≠ 0 →
        kind.Translates (sectionTable raw) (kind.directoryVa raw imageDirectoryEntryTls)) := by
  obtain ⟨hlength, hentry⟩ := kind.tls_entry raw
  rw [getTlsDirectory, hopt, hsect, if_neg hlength, hentry, returns_bind_iff]
  simp only [Except.ok.injEq, exists_eq_left']
  rw [returns_ite_iff, and_iff_right fun _ => returns_pure _, ← Kind.returns_translate_iff,
    returns_bind_iff]
  refine imp_congr_right fun _ => exists_congr fun tlsOff => and_iff_left ?_
  split
  · exact returns_pure _
  · exact returns_pure _

theorem Image.returns_getTlsCallbacks_iff :
    Returns (image.getTlsCallbacks kind raw) ↔ kind.TlsTranslates raw := by
  obtain ⟨hlength, hentry⟩ := kind.tls_entry raw
  have hiat : Returns ((kind.optionalHeader raw).iatEntry kind) := by
    cases kind with
    | pe32 => exact returns_pure 0
    | pe64 =>
      rw [ImageOptionalHeader.iatEntry, Kind.directory_eq (by decide)]
      exact returns_ok _
  obtain ⟨iat, hiat⟩ := hiat
  rw [getTlsCallbacks, Kind.TlsTranslates, hopt, hsect, if_neg hlength, hentry, hiat,
    returns_bind_iff]
  simp only [Except.ok.injEq, exists_eq_left']
  rw [returns_bind_iff]
  simp only [Except.ok.injEq, exists_eq_left']
  rw [returns_ite_iff, and_iff_right fun _ => returns_pure _, returns_bind_iff_forall,
    Kind.returns_translate_iff]
  refine imp_congr_right fun _ => and_congr_right fun _ => forall_congr' fun tlsOff => ?_
  rw [Kind.translate_eq_ok_iff, returns_ite_iff, and_iff_right fun _ => returns_pure _,
    ← Kind.returns_translate_iff, returns_bind_iff]
  refine imp_congr_right fun _ => imp_congr_right fun _ => exists_congr fun cbOff => ?_
  exact and_iff_left (returns_readCallbacks cbOff)

end Tls

/-- Parsing terminates on every file. It does not panic, and the image is safe to work with,
exactly if the file is parsable: what the signatures and the machine say is not enough. -/
theorem parse_safe_iff (kind : Kind) (raw : List UInt8) : Terminates (parse kind raw) ∧
      ((∃ image, parse kind raw = .ok image ∧ image.Safe kind raw) ↔ Parsable kind raw) := by
  refine ⟨terminates_parse, ?_, ?_⟩
  · rintro ⟨image, hparse, hsafe⟩
    obtain ⟨hfits, hopt, hsect, hdelays, himports⟩ := parse_eq_ok_iff.mp hparse
    refine ⟨hfits, ?_, ?_, ?_, ?_, ?_⟩
    · rw [← hopt]
      exact Image.returns_headers_iff.mp hsafe.headers
    · intro name
      rw [← hsect]
      exact Image.returns_getSectionPtrByName_iff.mp (hsafe.sectionPtrByName name)
    · exact DescriptorLoop.returns_read_iff.mp ⟨_, hdelays⟩
    · exact DescriptorLoop.returns_read_iff.mp ⟨_, himports⟩
    · exact (Image.returns_getTlsCallbacks_iff hopt hsect).mp hsafe.tlsCallbacks
  · intro hparsable
    obtain ⟨delays, hdelays⟩ := DescriptorLoop.returns_read_iff.mpr hparsable.delayLoads
    obtain ⟨imports, himports⟩ := DescriptorLoop.returns_read_iff.mpr hparsable.imports
    let image : Image := ⟨kind.optionalHeader raw, sectionTable raw, delays, imports⟩
    refine ⟨image, parse_eq_ok_iff.mpr ⟨hparsable.table, rfl, rfl, hdelays, himports⟩, ?_⟩
    exact
      { headers := Image.returns_headers_iff.mpr hparsable.headers
        sectionPtr := fun id hid => Image.returns_getSectionPtr hid
        sectionVaddr := fun id hid => Image.returns_getSectionVaddr hid
        sectionPtrByName := fun name =>
          Image.returns_getSectionPtrByName_iff.mpr (hparsable.names name)
        tlsCallbacks := (Image.returns_getTlsCallbacks_iff rfl rfl).mpr hparsable.tls
        tlsDirectory := (Image.returns_getTlsDirectory_iff rfl rfl).mpr fun hentry =>
          (hparsable.tls hentry).1
        imports := by
          have hsize : kind.importLoop.size = 20 := by cases kind <;> rfl
          exact hsize ▸ DescriptorLoop.length_read_le himports
        delayLoads := by
          have hsize : kind.delayLoadLoop.size = 32 := by cases kind <;> rfl
          exact hsize ▸ DescriptorLoop.length_read_le hdelays }

/-- A file that `is_pe64` accepts, 72 bytes long, whose section table would start behind its end. -/
def tableBehindEnd : List UInt8 :=
  [0x4d, 0x5a] ++ List.replicate 58 0 ++ [64, 0, 0, 0] ++
    [0x50, 0x45, 0, 0] ++ [0x64, 0x86] ++ [1, 0]

theorem parse_panics_behind_end :
    PE64.isPe64 tableBehindEnd = true ∧ PE64.parse tableBehindEnd = .error .slice ∧
      ¬ ∃ image, parse .pe64 tableBehindEnd = .ok image ∧ image.Safe .pe64 tableBehindEnd := by
  have hparse : parse .pe64 tableBehindEnd = .error .slice := by decide +kernel
  refine ⟨by decide +kernel, hparse, ?_⟩
  rintro ⟨image, hok, -⟩
  rw [hparse] at hok
  cases hok

/-- Without the section the same file is parsed. -/
example : Returns (PE64.parse (tableBehindEnd.take 70 ++ [0, 0])) := by
  refine ⟨⟨⟨0, 0, List.replicate 16 ⟨0, 0⟩⟩, [], [], []⟩, ?_⟩
  decide +kernel

end Mwemu.Pe
