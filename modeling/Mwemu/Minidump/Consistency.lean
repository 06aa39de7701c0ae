import Mwemu.Maps.Runs
import Mwemu.Minidump.Layout

/-!
# What a minidump says about itself

The padding catches every overflow but one: a stream whose end does not fit into 32 bits makes the
offset of the next one smaller than the output, and the writer returns an error. Behind the thread
list, the last stream, nothing is padded any more, so the offsets of the contexts may wrap around.
-/

namespace Mwemu.Minidump

open Mwemu.Lib List Option Nat

/-! ### Consistent files -/

/-- The range is inside the file and holds exactly these bytes. -/
def Holds (file : List UInt8) (rva size : Nat) (bytes : List UInt8) : Prop :=
  rva + size ≤ file.length ∧ (file.drop rva).take size = bytes

def Apart (a aEnd b bEnd : Nat) : Prop :=
  aEnd ≤ b ∨ bEnd ≤ a

def MemoryRegion.Contains (region : MemoryRegion) (addr : Nat) : Prop :=
  region.base ≤ addr ∧ addr < region.base + region.bytes.length

theorem MemoryRegion.dataSize_lt (region : MemoryRegion) : region.dataSize < 2 ^ 32 := by
  have hmax : u32Max = 2 ^ 32 - 1 := rfl
  unfold dataSize
  omega

section Reading

variable (file : List UInt8) (k i : Nat)

/-! The entries of the directory. -/

def dirType : Nat := u32At file (32 + 12 * k)
def dirSize : Nat := u32At file (32 + 12 * k + 4)
def dirRva : Nat := u32At file (32 + 12 * k + 8)

/-! The entries of the tables: the directory lists the threads first, then the modules, then the
memory. -/

def threadOff : Nat := dirRva file 0 + 4 + 48 * i
def moduleOff : Nat := dirRva file 1 + 4 + 108 * i
def memoryOff : Nat := dirRva file 2 + 4 + 16 * i

def memoryBase : Nat := u64At file (memoryOff file i)
def memorySize : Nat := u32At file (memoryOff file i + 8)
def memoryDataRva : Nat := u32At file (memoryOff file i + 12)

def nameRva : Nat := u32At file (moduleOff file i + 20)

def stackBase : Nat := u64At file (threadOff file i + 24)
def stackSize : Nat := u32At file (threadOff file i + 32)
def stackRva : Nat := u32At file (threadOff file i + 36)

def contextSize : Nat := u32At file (threadOff file i + 40)
def contextRva : Nat := u32At file (threadOff file i + 44)

end Reading

def payloadEnd (file : List UInt8) (k : Nat) (s : StreamLayout) : Nat :=
  dirRva file k + dirSize file k + s.trailingData.length

/-- Every range that the file names is inside of it and holds what it is said to hold. -/
structure Consistent (emu : Emu) (file : List UInt8) : Prop where
  streams : ∀ k s, emu.byDirectory[k]? = some s →
    dirType file k = s.streamType ∧ Holds file (dirRva file k) (dirSize file k) s.data ∧
      payloadEnd file k s ≤ file.length
  apart : ∀ j k s t, j < k → emu.byDirectory[j]? = some s → emu.byDirectory[k]? = some t →
    Apart (dirRva file j) (payloadEnd file j s) (dirRva file k) (payloadEnd file k t)
  memory : ∀ i region, emu.regions[i]? = some region → memoryBase file i = region.base ∧
    Holds file (memoryDataRva file i) (memorySize file i) region.bytes
  names : ∀ i module, emu.modules[i]? = some module →
    Holds file (nameRva file i) module.nameBlob.length module.nameBlob
  contexts : ∀ i thread, emu.threads[i]? = some thread →
    Holds file (contextRva file i) (contextSize file i) thread.context ∧
      dirRva file 0 + dirSize file 0 ≤ contextRva file i
  contextsApart : ∀ i j, i < j → j < emu.threads.length →
    Apart (contextRva file i) (contextRva file i + contextSize file i)
      (contextRva file j) (contextRva file j + contextSize file j)
  stackOf : ∀ i thread, emu.threads[i]? = some thread →
    (∃ k region, emu.regions[k]? = some region ∧ region.Contains thread.sp ∧
      stackBase file i = memoryBase file k ∧ stackSize file i = memorySize file k ∧
      stackRva file i = memoryDataRva file k) ∨
    ((∀ region ∈ emu.regions, ¬ region.Contains thread.sp) ∧ stackBase file i = 0 ∧
      stackSize file i = 0 ∧ stackRva file i = 0)

theorem Holds.of_at {file bytes : List UInt8} {off : Nat} (hat : At file off bytes)
    (hoff : off ≤ file.length) : Holds file off bytes.length bytes :=
  ⟨hat.length_le hoff, hat.take_drop⟩

/-! ### Where the thread list belongs -/

theorem sum_min_of_lt {β : Type} {size : β → Nat} {bound : Nat} {xs : List β}
    (hlt : (xs.map fun x => min bound (size x)).sum < bound ∨ (xs.map size).sum < bound) :
    (xs.map fun x => min bound (size x)).sum = (xs.map size).sum := by
  induction xs with
  | nil => rfl
  | cons x xs ih =>
    simp only [map_cons, sum_cons] at hlt ⊢
    rw [ih (by omega)]
    omega

namespace Emu

variable (emu : Emu)

/-- The size of the memory list: one descriptor per region, and the bytes of all of them. -/
def memoryLen : Nat :=
  4 + 16 * emu.regions.length + (emu.regions.map fun region => region.bytes.length).sum

def moduleLen : Nat :=
  4 + 108 * emu.modules.length + (emu.modules.map fun module => module.nameBlob.length).sum

def memoryEnd : Nat := 92 + emu.memoryLen
def memoryInfoEnd : Nat := up4 emu.memoryEnd + (16 + 48 * emu.regions.length)
def systemInfoEnd : Nat := up4 emu.memoryInfoEnd + 56
def moduleEnd : Nat := up4 emu.systemInfoEnd + emu.moduleLen

def threadRva : Nat := up4 emu.moduleEnd

/-- The place of a thread's context behind the table and the contexts of the threads before. -/
def contextOff (i : Nat) : Nat :=
  emu.threadRva + (4 + 48 * emu.threads.length) + emu.arch.contextSize * i

/-! ### The tables of the writer -/

theorem table_memoryStream :
    Table emu.memoryStream emu.regions 16 (fun region => region.bytes.take u32Max)
      memoryDescriptor where
  data := by
    have hsize : (fun region : MemoryRegion => (region.bytes.take u32Max).length) =
        MemoryRegion.dataSize := by
      funext region
      rw [length_take, min_comm]
      rfl
    rw [hsize]
    rfl
  trailing := rfl
  size x := by
    simp only [memoryDescriptor, length_append, length_leBytes]

theorem table_moduleStream :
    Table emu.moduleStream emu.modules 108 ModuleInfo.nameBlob moduleEntry where
  data := rfl
  trailing := rfl
  size x := by
    simp only [moduleEntry, fixedFileInfo, length_append, length_leBytes, length_replicate]

theorem table_threadStream :
    Table emu.threadStream emu.threads.zipIdx 48 (fun thread => thread.1.context)
      (threadEntry emu emu.regions (memoryLocations emu.regions memoryRva)) where
  data := by
    rw [length_zipIdx]
    rfl
  trailing := by
    change emu.threads.flatMap Thread.context = _
    conv_lhs => rw [← zipIdx_map_fst 0 emu.threads]
    rw [flatMap_map]
  size x := by
    simp only [threadEntry, length_append, length_leBytes]

/-! ### Sizes -/

theorem length_data_memoryInfoStream :
    emu.memoryInfoStream.data.length = 16 + 48 * emu.regions.length := by
  have hsize : ∀ region ∈ emu.regions, (memoryInfo emu.modules region).length = 48 := by
    intro region _
    simp only [memoryInfo, length_append, length_leBytes]
  simp only [memoryInfoStream, buildMemoryInfoListStream, length_append, length_leBytes,
    length_flatMap_of_size hsize]

theorem length_data_systemInfoStream : emu.systemInfoStream.data.length = 56 := by
  simp only [systemInfoStream, buildSystemInfoStream, length_append, length_leBytes,
    length_replicate]

theorem stop_memoryStream : emu.memoryStream.stop = 92 + (4 + 16 * emu.regions.length +
    (emu.regions.map fun region => min u32Max region.bytes.length).sum) := by
  unfold StreamLayout.stop
  rw [emu.table_memoryStream.length_data, emu.table_memoryStream.trailing, length_flatMap]
  simp only [length_take]
  exact add_assoc _ _ _

theorem stop_memoryStream_of_lt (hlt : emu.memoryStream.stop < 2 ^ 32 ∨ emu.memoryEnd < 2 ^ 32) :
    emu.memoryStream.stop = emu.memoryEnd := by
  have hmax : u32Max = 2 ^ 32 - 1 := rfl
  have hsum : (emu.regions.map fun region => min u32Max region.bytes.length).sum =
      (emu.regions.map fun region => region.bytes.length).sum := by
    refine sum_min_of_lt ?_
    rw [stop_memoryStream] at hlt
    unfold memoryEnd memoryLen at hlt
    omega
  rw [stop_memoryStream, hsum]
  rfl

theorem stop_memoryInfoStream :
    emu.memoryInfoStream.stop = emu.memoryStream.nextRva + (16 + 48 * emu.regions.length) := by
  unfold StreamLayout.stop
  rw [length_data_memoryInfoStream]
  rfl

theorem stop_systemInfoStream : emu.systemInfoStream.stop = emu.memoryInfoStream.nextRva + 56 := by
  unfold StreamLayout.stop
  rw [length_data_systemInfoStream]
  rfl

theorem stop_moduleStream :
    emu.moduleStream.stop = emu.systemInfoStream.nextRva + emu.moduleLen := by
  unfold StreamLayout.stop moduleLen
  rw [emu.table_moduleStream.length_data, emu.table_moduleStream.trailing, length_flatMap,
    add_assoc]
  rfl

/-- The four streams in front of the thread list end below 4 GiB, padding included. -/
structure Fits : Prop where
  memory : up4 emu.memoryStream.stop < 2 ^ 32
  memoryInfo : up4 emu.memoryInfoStream.stop < 2 ^ 32
  systemInfo : up4 emu.systemInfoStream.stop < 2 ^ 32
  module : up4 emu.moduleStream.stop < 2 ^ 32

variable {emu}

theorem memoryInfoStream_stop (hmemory : up4 emu.memoryStream.stop < 2 ^ 32) :
    emu.memoryInfoStream.stop = emu.memoryInfoEnd := by
  have hlt : emu.memoryStream.stop < 2 ^ 32 := by
    unfold up4 at hmemory
    omega
  rw [stop_memoryInfoStream, StreamLayout.nextRva_of_lt hmemory,
    stop_memoryStream_of_lt emu (.inl hlt)]
  rfl

theorem systemInfoStream_stop (hmemory : up4 emu.memoryStream.stop < 2 ^ 32)
    (hinfo : up4 emu.memoryInfoStream.stop < 2 ^ 32) :
    emu.systemInfoStream.stop = emu.systemInfoEnd := by
  rw [stop_systemInfoStream, StreamLayout.nextRva_of_lt hinfo, memoryInfoStream_stop hmemory]
  rfl

theorem moduleStream_stop (hmemory : up4 emu.memoryStream.stop < 2 ^ 32)
    (hinfo : up4 emu.memoryInfoStream.stop < 2 ^ 32)
    (hsystem : up4 emu.systemInfoStream.stop < 2 ^ 32) : emu.moduleStream.stop = emu.moduleEnd := by
  rw [stop_moduleStream, StreamLayout.nextRva_of_lt hsystem, systemInfoStream_stop hmemory hinfo]
  rfl

theorem Fits.rva_threadStream (h : emu.Fits) : emu.threadStream.rva = emu.threadRva := by
  change emu.moduleStream.nextRva = _
  rw [StreamLayout.nextRva_of_lt h.module, moduleStream_stop h.memory h.memoryInfo h.systemInfo]
  rfl

theorem fits_iff : emu.Fits ↔ emu.threadRva < 2 ^ 32 := by
  refine ⟨fun h => h.rva_threadStream ▸ emu.moduleStream.nextRva_lt, fun hlt => ?_⟩
  have hmodule : up4 emu.moduleEnd < 2 ^ 32 := hlt
  have hsystem : up4 emu.systemInfoEnd < 2 ^ 32 := by
    unfold moduleEnd up4 at hmodule
    unfold up4
    omega
  have hinfo : up4 emu.memoryInfoEnd < 2 ^ 32 := by
    unfold systemInfoEnd up4 at hsystem
    unfold up4
    omega
  have hmemory : up4 emu.memoryEnd < 2 ^ 32 := by
    unfold memoryInfoEnd up4 at hinfo
    unfold up4
    omega
  have hlt : emu.memoryEnd < 2 ^ 32 := by
    unfold up4 at hmemory
    omega
  rw [← stop_memoryStream_of_lt emu (.inr hlt)] at hmemory
  rw [← memoryInfoStream_stop hmemory] at hinfo
  rw [← systemInfoStream_stop hmemory hinfo] at hsystem
  rw [← moduleStream_stop hmemory hinfo hsystem] at hmodule
  exact ⟨hmemory, hinfo, hsystem, hmodule⟩

/-! ### The file -/

theorem length_header : (header emu).length = 32 := by
  simp only [header, length_append, length_leBytes]

theorem length_directoryForStream (s : StreamLayout) : (directoryForStream s).length = 12 := by
  simp only [directoryForStream, length_append, length_leBytes]

theorem length_front : (header emu ++ emu.byDirectory.flatMap directoryForStream).length = 92 := by
  rw [length_append, length_header, length_flatMap_of_size fun s _ => length_directoryForStream s]
  rfl

/-- What was written in full: the streams, one behind the other, and the directory. -/
structure Laid (emu : Emu) (file : List UInt8) : Prop where
  front : header emu ++ emu.byDirectory.flatMap directoryForStream <+: file
  written : ∀ s ∈ emu.byPosition, 92 ≤ s.rva ∧ s.Written file
  chain : emu.byPosition.Pairwise fun s t => s.stop ≤ t.rva

variable {file : List UInt8}

theorem laid_of_writeToFile (hok : writeToFile emu = .ok file) : Laid emu file := by
  obtain ⟨hfront, hwritten, hchain⟩ := written_of_foldlM hok
  rw [length_front] at hwritten
  exact ⟨hfront, hwritten, hchain⟩

theorem Laid.fits (h : Laid emu file) : emu.Fits := by
  have hpositive : ∀ s ∈ emu.byPosition, 0 < s.stop := by
    intro s hs
    have hrva := (h.written s hs).1
    unfold StreamLayout.stop
    omega
  have hchain := h.chain
  simp only [byPosition, pairwise_cons, forall_mem_cons] at hchain hpositive
  obtain ⟨hmemory, hinfo, hsystem, hmodule, -⟩ := hpositive
  obtain ⟨⟨h₁, -⟩, ⟨h₂, -⟩, ⟨h₃, -⟩, ⟨h₄, -⟩, -⟩ := hchain
  exact ⟨(StreamLayout.stop_le_nextRva_iff hmemory).mp h₁,
    (StreamLayout.stop_le_nextRva_iff hinfo).mp h₂,
    (StreamLayout.stop_le_nextRva_iff hsystem).mp h₃,
    (StreamLayout.stop_le_nextRva_iff hmodule).mp h₄⟩

theorem Fits.exists_file (h : emu.Fits) : ∃ file, writeToFile emu = .ok file := by
  have hnext : ∀ s : StreamLayout, up4 s.stop < 2 ^ 32 → s.stop ≤ s.nextRva := by
    intro s hs
    rw [StreamLayout.nextRva_of_lt hs]
    unfold up4
    omega
  have hmemory := hnext _ h.memory
  have hinfo := hnext _ h.memoryInfo
  have hsystem := hnext _ h.systemInfo
  have hmodule := hnext _ h.module
  have hstop₀ := emu.stop_memoryStream
  have hstop₁ := emu.stop_memoryInfoStream
  have hstop₂ := emu.stop_systemInfoStream
  have hstop₃ := emu.stop_moduleStream
  have hrva₀ : emu.memoryStream.rva = 92 := rfl
  have hrva₁ : emu.memoryInfoStream.rva = emu.memoryStream.nextRva := rfl
  have hrva₂ : emu.systemInfoStream.rva = emu.memoryInfoStream.nextRva := rfl
  have hrva₃ : emu.moduleStream.rva = emu.systemInfoStream.nextRva := rfl
  have hrva₄ : emu.threadStream.rva = emu.moduleStream.nextRva := rfl
  refine exists_foldlM ?_ ?_
  · simp only [byPosition, pairwise_cons, forall_mem_cons, not_mem_nil,
      false_imp_iff, implies_true, and_true, List.Pairwise.nil]
    omega
  · rw [length_front]
    simp only [byPosition, forall_mem_cons, not_mem_nil, false_imp_iff, implies_true, and_true]
    omega

/-! ### The directory -/

variable {k : Nat} {s : StreamLayout}

theorem Laid.at_directory (h : Laid emu file) (hs : emu.byDirectory[k]? = some s) :
    At file (32 + 12 * k) (directoryForStream s) := by
  obtain ⟨hk, rfl⟩ := List.getElem?_eq_some_iff.mp hs
  have hat : At file 0 (header emu ++ emu.byDirectory.flatMap directoryForStream) := h.front
  have hentry := hat.tail.flatMap hk
  rwa [length_header, length_flatMap_take (fun s _ => length_directoryForStream s) hk.le,
    zero_add] at hentry

theorem mem_byPosition (hs : emu.byDirectory[k]? = some s) : s ∈ emu.byPosition := by
  have hmem := mem_of_getElem? hs
  simp only [byDirectory, byPosition, mem_cons, not_mem_nil, or_false] at hmem ⊢
  tauto

theorem rva_lt (hs : s ∈ emu.byPosition) : s.rva < 2 ^ 32 := by
  simp only [byPosition, mem_cons, not_mem_nil, or_false] at hs
  obtain rfl | rfl | rfl | rfl | rfl := hs
  · exact align4_lt _
  all_goals exact StreamLayout.nextRva_lt _

theorem Laid.dirType_eq (h : Laid emu file) (hs : emu.byDirectory[k]? = some s) :
    dirType file k = s.streamType := by
  have htypes : emu.byDirectory.map StreamLayout.streamType = [3, 4, 5, 7, 16] := rfl
  have hsmall : ∀ streamType ∈ [3, 4, 5, 7, 16], streamType < 2 ^ 32 := by decide
  refine u32At_of_lt (h.at_directory hs).head (hsmall _ ?_)
  rw [← htypes]
  exact mem_map_of_mem (mem_of_getElem? hs)

theorem Laid.dirSize_eq (h : Laid emu file) (hs : emu.byDirectory[k]? = some s) :
    dirSize file k = min s.data.length u32Max := by
  have hmax : u32Max = 2 ^ 32 - 1 := rfl
  have hat := (h.at_directory hs).tail.head
  rw [length_leBytes] at hat
  exact u32At_of_lt hat (by omega)

theorem Laid.dirRva_eq (h : Laid emu file) (hs : emu.byDirectory[k]? = some s) :
    dirRva file k = s.rva := by
  have hat := (h.at_directory hs).tail.tail
  rw [length_leBytes, length_leBytes] at hat
  exact u32At_of_lt hat (rva_lt (mem_byPosition hs))

theorem Laid.written_of (h : Laid emu file) (hs : emu.byDirectory[k]? = some s) : s.Written file :=
  (h.written s (mem_byPosition hs)).2

theorem Laid.apart (h : Laid emu file) {j : Nat} {t : StreamLayout} (hjk : j < k)
    (hs : emu.byDirectory[j]? = some s) (ht : emu.byDirectory[k]? = some t) :
    Apart s.rva s.stop t.rva t.stop := by
  have hpairwise : emu.byDirectory.Pairwise fun s t => Apart s.rva s.stop t.rva t.stop := by
    have hchain := h.chain
    simp only [byPosition, byDirectory, Apart, pairwise_cons, forall_mem_cons,
      not_mem_nil, false_imp_iff, implies_true, and_true, List.Pairwise.nil] at hchain ⊢
    obtain ⟨⟨h₀₁, h₀₂, h₀₃, h₀₄⟩, ⟨h₁₂, h₁₃, h₁₄⟩, ⟨h₂₃, h₂₄⟩, h₃₄⟩ := hchain
    exact ⟨⟨.inr h₃₄, .inr h₀₄, .inr h₂₄, .inr h₁₄⟩, ⟨.inr h₀₃, .inr h₂₃, .inr h₁₃⟩,
      ⟨.inl h₀₂, .inl h₀₁⟩, .inr h₁₂⟩
  obtain ⟨hj, rfl⟩ := List.getElem?_eq_some_iff.mp hs
  obtain ⟨hk, rfl⟩ := List.getElem?_eq_some_iff.mp ht
  exact pairwise_iff_getElem.mp hpairwise j k hj hk hjk

/-! ### The tables -/

def dataOff (emu : Emu) (i : Nat) : Nat :=
  Table.blobOff emu.memoryStream emu.regions 16 (fun region => region.bytes.take u32Max) i

variable {i : Nat}

section

variable (h : Laid emu file)
include h

section

variable (hi : i < emu.regions.length)
include hi

theorem Laid.at_memory :
    At file (memoryOff file i) (memoryDescriptor (emu.regions[i], emu.dataOff i % 2 ^ 32)) := by
  have hs : emu.byDirectory[2]? = some emu.memoryStream := rfl
  rw [memoryOff, h.dirRva_eq hs]
  exact emu.table_memoryStream.at_entry (h.written_of hs) hi

theorem Laid.memoryBase_eq : memoryBase file i = emu.regions[i].base % 2 ^ 64 :=
  u64At_eq (h.at_memory hi).head

theorem Laid.memorySize_eq : memorySize file i = emu.regions[i].dataSize := by
  have hat := (h.at_memory hi).tail.head
  rw [length_leBytes] at hat
  exact u32At_of_lt hat (MemoryRegion.dataSize_lt _)

theorem Laid.memoryDataRva_eq : memoryDataRva file i = emu.dataOff i % 2 ^ 32 := by
  have hat := (h.at_memory hi).tail.tail
  rw [length_leBytes, length_leBytes] at hat
  exact u32At_of_lt hat (mod_lt _ (by decide))

end

theorem Laid.at_module (hi : i < emu.modules.length) :
    At file (moduleOff file i) (moduleEntry (emu.modules[i],
      Table.blobOff emu.moduleStream emu.modules 108 ModuleInfo.nameBlob i % 2 ^ 32)) := by
  have hs : emu.byDirectory[1]? = some emu.moduleStream := rfl
  rw [moduleOff, h.dirRva_eq hs]
  exact emu.table_moduleStream.at_entry (h.written_of hs) hi

theorem Laid.nameRva_eq (hi : i < emu.modules.length) : nameRva file i =
      Table.blobOff emu.moduleStream emu.modules 108 ModuleInfo.nameBlob i % 2 ^ 32 := by
  have hat := (h.at_module hi).tail.head
  simp only [length_append, length_leBytes] at hat
  exact u32At_of_lt hat (mod_lt _ (by decide))

section

variable (hi : i < emu.threads.length)
include hi

theorem Laid.at_thread :
    At file (threadOff file i) (threadEntry emu emu.regions (memoryLocations emu.regions memoryRva)
      ((emu.threads[i], i), (emu.threadStream.rva + (4 + 48 * emu.threads.length) +
        emu.arch.contextSize * i) % 2 ^ 32)) := by
  have hs : emu.byDirectory[0]? = some emu.threadStream := rfl
  have hi' : i < emu.threads.zipIdx.length := by rwa [length_zipIdx]
  have hat := emu.table_threadStream.at_entry (h.written_of hs) hi'
  have hsize : ∀ thread ∈ emu.threads.zipIdx, thread.1.context.length = emu.arch.contextSize :=
    fun thread _ => thread.1.size_eq
  rw [Table.blobOff, length_flatMap_take hsize hi'.le, length_zipIdx, getElem_zipIdx,
    zero_add] at hat
  rwa [threadOff, h.dirRva_eq hs]

theorem Laid.contextRva_eq : contextRva file i = emu.contextOff i % 2 ^ 32 := by
  have hat := (h.at_thread hi).tail.tail.tail.tail.tail
  simp only [length_append, length_leBytes] at hat
  rw [contextOff, ← h.fits.rva_threadStream]
  exact u32At_of_lt hat (mod_lt _ (by decide))

theorem Laid.contextSize_eq : contextSize file i = emu.arch.contextSize := by
  have hat := (h.at_thread hi).tail.tail.tail.tail.head
  simp only [length_append, length_leBytes, Thread.size_eq] at hat
  refine u32At_of_lt hat ?_
  cases emu.arch <;> decide

theorem Laid.at_context : At file (emu.contextOff i) emu.threads[i].context ∧
      emu.contextOff i + emu.arch.contextSize ≤ file.length := by
  have hs : emu.byDirectory[0]? = some emu.threadStream := rfl
  have hi' : i < emu.threads.zipIdx.length := by rwa [length_zipIdx]
  have hat := emu.table_threadStream.at_blob (h.written_of hs) hi'
  have hle := (emu.table_threadStream.blobOff_add_le hi').trans (h.written_of hs).stop_le
  have hsize : ∀ thread ∈ emu.threads.zipIdx, thread.1.context.length = emu.arch.contextSize :=
    fun thread _ => thread.1.size_eq
  rw [Table.blobOff, length_flatMap_take hsize hi'.le, length_zipIdx, getElem_zipIdx,
    h.fits.rva_threadStream] at hat hle
  rw [Thread.size_eq] at hle
  exact ⟨hat, hle⟩

end

end

/-! ### Stacks -/

theorem mem_regions {region : MemoryRegion} (hmem : region ∈ emu.regions) :
    ∃ key r, (region.base, key) ∈ emu.maps.maps ∧ emu.maps.memSlab.get key = some r ∧
      region.bytes = r.mem := by
  obtain ⟨entry, hentry, hregion⟩ := mem_filterMap.mp hmem
  obtain ⟨r, hget, hsome⟩ := bind_eq_some_iff.mp hregion
  split at hsome
  · cases hsome
  · cases hsome
    exact ⟨entry.2, r, hentry, hget, rfl⟩

theorem regions_bounded {region : MemoryRegion} (hmem : region ∈ emu.regions) :
    region.base + region.bytes.length < 2 ^ 64 := by
  obtain ⟨key, r, hentry, hget, hbytes⟩ := mem_regions hmem
  obtain ⟨r', hget', hbase⟩ := (emu.wf.based _ _).mp hentry
  obtain rfl : r = r' := Option.some.inj (hget.symm.trans hget')
  have hsized := emu.wf.sized key r hget
  have hbounded := emu.wf.bounded key r hget
  have hmax : u64Max = 2 ^ 64 - 1 := rfl
  rw [hbytes, ← hbase]
  unfold Mem64.size at hsized
  omega

theorem regions_sorted : emu.regions.Pairwise fun a b => a.base < b.base := by
  refine emu.maps.maps.sorted.filterMap _ ?_
  intro a b hab x hx y hy
  obtain ⟨_, -, hx⟩ := bind_eq_some_iff.mp hx
  obtain ⟨_, -, hy⟩ := bind_eq_some_iff.mp hy
  split at hx
  · cases hx
  split at hy
  · cases hy
  · cases hx
    cases hy
    exact hab

end Emu

variable {locations : List (MemoryRegion × Nat)}

theorem get_foldl_insert {table : OrdMap (Nat × Nat)}
    {base : Nat} (hbase : ∀ entry ∈ locations, entry.1.base ≠ base) :
    (locations.foldl (fun table entry => table.insert entry.1.base (entry.1.dataSize, entry.2))
      table).get base = table.get base := by
  induction locations generalizing table with
  | nil => rfl
  | cons entry locations ih =>
    rw [foldl_cons, ih fun x hx => hbase x (mem_cons_of_mem _ hx)]
    exact OrdMap.get_insert_of_ne (hbase entry mem_cons_self).symm

theorem get_locationTable
    (hsorted : locations.Pairwise fun a b => a.1.base < b.1.base) {entry : MemoryRegion × Nat}
    (hentry : entry ∈ locations) :
    (locationTable locations).get entry.1.base = some (entry.1.dataSize, entry.2) := by
  obtain ⟨before, after, rfl⟩ := append_of_mem hentry
  obtain ⟨-, hafter, -⟩ := pairwise_append.mp hsorted
  obtain ⟨hlater, -⟩ := pairwise_cons.mp hafter
  rw [locationTable, foldl_append, foldl_cons, get_foldl_insert fun x hx => (hlater x hx).ne']
  exact OrdMap.get_insert_self _ _

theorem map_fst_placed {β : Type} (size : β → Nat) (rva : Nat) (xs : List β) :
    (placed size rva xs).map Prod.fst = xs := by
  induction xs generalizing rva with
  | nil => rfl
  | cons x xs ih => rw [placed, map_cons, ih]

namespace Emu

variable {emu : Emu} {file : List UInt8}

theorem getElem?_memoryLocations (i : Nat) : (memoryLocations emu.regions memoryRva)[i]? =
      emu.regions[i]?.map fun region => (region, emu.dataOff i % 2 ^ 32) := by
  have hsize : MemoryRegion.dataSize =
      fun region : MemoryRegion => (region.bytes.take u32Max).length := by
    funext region
    rw [length_take, min_comm]
    rfl
  unfold memoryLocations
  rw [hsize]
  exact Table.getElem?_placed_blobs emu.memoryStream emu.regions 16 _ i

theorem locations_sorted :
    (memoryLocations emu.regions memoryRva).Pairwise fun a b => a.1.base < b.1.base := by
  have hsorted : emu.regions.Pairwise fun a b => a.base < b.base := regions_sorted
  rw [← map_fst_placed MemoryRegion.dataSize
    (add32 memoryRva (add32 4 (emu.regions.length % 2 ^ 32 * minidumpMemoryDescriptorSize)))
    emu.regions, pairwise_map] at hsorted
  exact hsorted

theorem stackLocation_cases (sp : Nat) :
    (∃ k, ∃ hk : k < emu.regions.length, (emu.regions[k]).Contains sp ∧
      stackLocationForThread sp emu.regions (memoryLocations emu.regions memoryRva) =
        (emu.regions[k].base, emu.regions[k].dataSize, emu.dataOff k % 2 ^ 32)) ∨
    ((∀ region ∈ emu.regions, ¬ region.Contains sp) ∧
      stackLocationForThread sp emu.regions (memoryLocations emu.regions memoryRva) =
        (0, 0, 0)) := by
  -- Regions end below 2 ^ 64, so the test of the source is the one for the region itself.
  have htest : ∀ region ∈ emu.regions, (decide (region.base ≤ sp) &&
      decide (sp < (region.base + region.bytes.length) % 2 ^ 64)) = true ↔ region.Contains sp := by
    intro region hregion
    rw [mod_eq_of_lt (regions_bounded hregion), Bool.and_eq_true, decide_eq_true_eq,
      decide_eq_true_eq]
    rfl
  unfold stackLocationForThread
  cases hfound : emu.regions.find? fun region => decide (region.base ≤ sp) &&
      decide (sp < (region.base + region.bytes.length) % 2 ^ 64) with
  | none =>
    refine .inr ⟨fun region hregion hcontains => ?_, rfl⟩
    exact List.find?_eq_none.mp hfound region hregion ((htest region hregion).mpr hcontains)
  | some region =>
    have hregion := mem_of_find?_eq_some hfound
    obtain ⟨k, hk, rfl⟩ := mem_iff_getElem.mp hregion
    have hlocation : (emu.regions[k], emu.dataOff k % 2 ^ 32) ∈
        memoryLocations emu.regions memoryRva := by
      refine mem_of_getElem? (i := k) ?_
      rw [getElem?_memoryLocations, List.getElem?_eq_getElem hk, map_some]
    have hcontains := List.find?_some hfound
    refine .inl ⟨k, hk, (htest _ hregion).mp hcontains, ?_⟩
    simp only [get_locationTable locations_sorted hlocation]

variable {i : Nat}

theorem Laid.stack_eq (h : Laid emu file) (hi : i < emu.threads.length) :
    stackBase file i = (stackLocationForThread emu.threads[i].sp emu.regions
        (memoryLocations emu.regions memoryRva)).1 % 2 ^ 64 ∧
      stackSize file i = (stackLocationForThread emu.threads[i].sp emu.regions
        (memoryLocations emu.regions memoryRva)).2.1 % 2 ^ 32 ∧
      stackRva file i = (stackLocationForThread emu.threads[i].sp emu.regions
        (memoryLocations emu.regions memoryRva)).2.2 % 2 ^ 32 := by
  have hat := (h.at_thread hi).tail
  have hsize := hat.tail
  have hrva := hsize.tail
  simp only [length_append, length_leBytes] at hat hsize hrva
  exact ⟨u64At_eq hat.head, u32At_eq hsize.head, u32At_eq hrva.head⟩

/-! ### Consistency -/

theorem Laid.memory_holds (h : Laid emu file) {region : MemoryRegion}
    (hregion : emu.regions[i]? = some region) : memoryBase file i = region.base ∧
      Holds file (memoryDataRva file i) (memorySize file i) region.bytes := by
  obtain ⟨hi, rfl⟩ := List.getElem?_eq_some_iff.mp hregion
  have hs : emu.byDirectory[2]? = some emu.memoryStream := rfl
  have hmax : u32Max = 2 ^ 32 - 1 := rfl
  have hbounded := regions_bounded (getElem_mem hi)
  have hat := emu.table_memoryStream.at_blob (h.written_of hs) hi
  have hle := emu.table_memoryStream.blobOff_add_le hi
  have hstop := h.fits.memory
  have hfile := (h.written_of hs).stop_le
  have hoff : emu.dataOff i = Table.blobOff emu.memoryStream emu.regions 16
    (fun region => region.bytes.take u32Max) i := rfl
  rw [← hoff] at hat hle
  rw [length_take] at hle
  have hblob : 92 ≤ emu.dataOff i := by
    rw [hoff, Table.blobOff]
    have hrva : emu.memoryStream.rva = 92 := rfl
    omega
  unfold up4 at hstop
  have hshort : emu.regions[i].bytes.length < u32Max := by omega
  rw [take_of_length_le hshort.le] at hat
  refine ⟨(h.memoryBase_eq hi).trans (mod_eq_of_lt (by omega)), ?_⟩
  rw [h.memoryDataRva_eq hi, h.memorySize_eq hi, MemoryRegion.dataSize,
    min_eq_left hshort.le, mod_eq_of_lt (by omega)]
  exact .of_at hat (by omega)

theorem Laid.name_holds (h : Laid emu file) {module : ModuleInfo}
    (hmodule : emu.modules[i]? = some module) :
    Holds file (nameRva file i) module.nameBlob.length module.nameBlob := by
  obtain ⟨hi, rfl⟩ := List.getElem?_eq_some_iff.mp hmodule
  have hs : emu.byDirectory[1]? = some emu.moduleStream := rfl
  have hat := emu.table_moduleStream.at_blob (h.written_of hs) hi
  have hle := emu.table_moduleStream.blobOff_add_le hi
  have hstop := h.fits.module
  have hfile := (h.written_of hs).stop_le
  have hblob : 0 < emu.modules[i].nameBlob.length := by
    unfold ModuleInfo.nameBlob encodeMinidumpString
    rw [length_append, length_leBytes]
    omega
  unfold up4 at hstop
  rw [h.nameRva_eq hi, mod_eq_of_lt (by omega)]
  exact .of_at hat (by omega)

theorem Laid.stackOf (h : Laid emu file) {thread : Thread emu.arch}
    (hthread : emu.threads[i]? = some thread) :
    (∃ k region, emu.regions[k]? = some region ∧ region.Contains thread.sp ∧
      stackBase file i = memoryBase file k ∧ stackSize file i = memorySize file k ∧
      stackRva file i = memoryDataRva file k) ∨
    ((∀ region ∈ emu.regions, ¬ region.Contains thread.sp) ∧ stackBase file i = 0 ∧
      stackSize file i = 0 ∧ stackRva file i = 0) := by
  obtain ⟨hi, rfl⟩ := List.getElem?_eq_some_iff.mp hthread
  obtain ⟨hbase, hsize, hrva⟩ := h.stack_eq hi
  rcases stackLocation_cases emu.threads[i].sp with ⟨k, hk, hcontains, hlocation⟩ |
    ⟨hnone, hlocation⟩
  · rw [hlocation] at hbase hsize hrva
    refine .inl ⟨k, _, List.getElem?_eq_getElem hk, hcontains, ?_, ?_, ?_⟩
    · rw [hbase, h.memoryBase_eq hk]
    · rw [hsize, h.memorySize_eq hk, mod_eq_of_lt (MemoryRegion.dataSize_lt _)]
    · rw [hrva, h.memoryDataRva_eq hk, mod_mod]
  · rw [hlocation] at hbase hsize hrva
    exact .inr ⟨hnone, hbase, hsize, hrva⟩

theorem Laid.dirSize_of_contexts (h : Laid emu file)
    (hcontexts : ∀ i < emu.threads.length, emu.contextOff i < 2 ^ 32) {k : Nat} {s : StreamLayout}
    (hs : emu.byDirectory[k]? = some s) : dirSize file k = s.data.length := by
  have hmax : u32Max = 2 ^ 32 - 1 := rfl
  have hshort : ∀ s : StreamLayout, up4 s.stop < 2 ^ 32 → s.data.length < 2 ^ 32 := by
    intro s hs
    unfold up4 StreamLayout.stop at hs
    omega
  have hthread : emu.threadStream.data.length < 2 ^ 32 := by
    rw [emu.table_threadStream.length_data, length_zipIdx]
    rcases Nat.eq_zero_or_pos emu.threads.length with hnone | hsome
    · omega
    · have hlt := hcontexts 0 hsome
      unfold contextOff at hlt
      omega
  have hlt : s.data.length < 2 ^ 32 := by
    have hmem := mem_of_getElem? hs
    simp only [byDirectory, mem_cons, not_mem_nil, or_false] at hmem
    obtain rfl | rfl | rfl | rfl | rfl := hmem
    · exact hthread
    · exact hshort _ h.fits.module
    · exact hshort _ h.fits.memory
    · exact hshort _ h.fits.systemInfo
    · exact hshort _ h.fits.memoryInfo
  rw [h.dirSize_eq hs]
  omega

theorem Laid.payloadEnd_eq (h : Laid emu file)
    (hcontexts : ∀ i < emu.threads.length, emu.contextOff i < 2 ^ 32) {k : Nat} {s : StreamLayout}
    (hs : emu.byDirectory[k]? = some s) : payloadEnd file k s = s.stop := by
  rw [payloadEnd, h.dirRva_eq hs, h.dirSize_of_contexts hcontexts hs]
  rfl

theorem Laid.consistent (h : Laid emu file)
    (hcontexts : ∀ i < emu.threads.length, emu.contextOff i < 2 ^ 32) : Consistent emu file where
  streams k s hs := by
    have hwritten := h.written_of hs
    have hrva : s.rva ≤ file.length := by
      have hstop := hwritten.stop_le
      unfold StreamLayout.stop at hstop
      omega
    rw [h.payloadEnd_eq hcontexts hs, h.dirRva_eq hs, h.dirSize_of_contexts hcontexts hs]
    exact ⟨h.dirType_eq hs, .of_at hwritten.at_rva.head hrva, hwritten.stop_le⟩
  apart j k s t hjk hs ht := by
    rw [h.payloadEnd_eq hcontexts hs, h.payloadEnd_eq hcontexts ht, h.dirRva_eq hs, h.dirRva_eq ht]
    exact h.apart hjk hs ht
  memory _ _ hregion := h.memory_holds hregion
  names _ _ hmodule := h.name_holds hmodule
  contexts i thread hthread := by
    obtain ⟨hi, rfl⟩ := List.getElem?_eq_some_iff.mp hthread
    obtain ⟨hat, hle⟩ := h.at_context hi
    have hs : emu.byDirectory[0]? = some emu.threadStream := rfl
    rw [h.contextRva_eq hi, h.contextSize_eq hi, mod_eq_of_lt (hcontexts i hi),
      h.dirRva_eq hs, h.dirSize_of_contexts hcontexts hs, emu.table_threadStream.length_data,
      length_zipIdx, h.fits.rva_threadStream]
    refine ⟨?_, le_add_right _ _⟩
    rw [← (emu.threads[i]).size_eq]
    exact .of_at hat (by omega)
  contextsApart i j hij hj := by
    have hi := hij.trans hj
    rw [h.contextRva_eq hi, h.contextRva_eq hj, h.contextSize_eq hi, h.contextSize_eq hj,
      mod_eq_of_lt (hcontexts i hi), mod_eq_of_lt (hcontexts j hj)]
    have hstep := mul_le_mul_left emu.arch.contextSize hij
    rw [succ_eq_add_one, mul_succ] at hstep
    unfold contextOff
    exact .inl (by omega)
  stackOf _ _ hthread := h.stackOf hthread

/-- In a consistent file no context wraps around: the first one would start in front of its table,
a later one would overlap the first. -/
theorem Laid.contextOff_lt (h : Laid emu file) (hconsistent : Consistent emu file)
    (hi : i < emu.threads.length) : emu.contextOff i < 2 ^ 32 := by
  have hs : emu.byDirectory[0]? = some emu.threadStream := rfl
  have hsize : 0 < emu.arch.contextSize ∧ emu.arch.contextSize < 2 ^ 32 := by
    cases emu.arch <;> decide
  -- The offset that the file has for a context is behind the table as the directory has it.
  have hbehind : ∀ j < emu.threads.length, emu.threadRva +
      min (4 + 48 * emu.threads.length) u32Max ≤ emu.contextOff j % 2 ^ 32 := by
    intro j hj
    have hle := (hconsistent.contexts j _ (List.getElem?_eq_getElem hj)).2
    rwa [h.dirRva_eq hs, h.dirSize_eq hs, h.contextRva_eq hj, emu.table_threadStream.length_data,
      length_zipIdx, h.fits.rva_threadStream] at hle
  have hrva : 92 ≤ emu.threadRva := by
    rw [← h.fits.rva_threadStream]
    exact (h.written _ (mem_byPosition hs)).1
  have hmax : u32Max = 2 ^ 32 - 1 := rfl
  have hzero : emu.contextOff 0 = emu.threadRva + (4 + 48 * emu.threads.length) := rfl
  have hfirst : emu.contextOff 0 < 2 ^ 32 := by
    have hle := hbehind 0 (by omega)
    have hlt := fits_iff.mp h.fits
    omega
  induction i with
  | zero => exact hfirst
  | succ i ih =>
    have hlt := ih (by omega)
    have hnext : emu.contextOff (i + 1) = emu.contextOff i + emu.arch.contextSize := by
      unfold contextOff
      rw [mul_succ, ← add_assoc]
    by_contra hwrap
    have hle := hbehind (i + 1) hi
    have hapart := hconsistent.contextsApart 0 (i + 1) (by omega) hi
    rw [h.contextRva_eq (by omega), h.contextRva_eq hi, h.contextSize_eq (by omega),
      h.contextSize_eq hi] at hapart
    unfold Apart at hapart
    omega

theorem consistent_iff (emu : Emu) : (∀ file, writeToFile emu = .ok file → Consistent emu file) ↔
      (emu.threadRva < 2 ^ 32 → ∀ i < emu.threads.length, emu.contextOff i < 2 ^ 32) := by
  constructor
  · intro hconsistent hfits i hi
    obtain ⟨file, hok⟩ := (fits_iff.mpr hfits).exists_file
    exact (laid_of_writeToFile hok).contextOff_lt (hconsistent file hok) hi
  · intro hcontexts file hok
    have hlaid := laid_of_writeToFile hok
    exact hlaid.consistent (hcontexts (fits_iff.mp hlaid.fits))

section OneRegion

variable (size : Nat) (hsize : 0x1000 + size ≤ u64Max)

def oneMap : Maps := (Maps.default.createMap "heap" 0x1000 size Maps.readWrite).1

include hsize in
theorem oneMap_wf : (oneMap size).Wf := by
  refine (Maps.wf_default.createMap Maps.readWrite hsize (.inr (.inr ?_))).wf
  intro key r hget
  rw [Maps.default, Slab.get_empty] at hget
  cases hget

def oneRegion : Emu where
  arch := .x86
  os := .windows
  maps := oneMap size
  wf := oneMap_wf size hsize
  threads := [⟨1, false, 0x1000, List.replicate 716 0, List.length_replicate⟩]
  currentThreadId := 0
  displayNameForModule := id
  now := 0

theorem oneRegion_regions (hpos : 0 < size) : (oneRegion size hsize).regions =
    [⟨"heap", 0x1000, List.replicate size 0, Maps.readWrite⟩] := by
  have hmaps : (oneRegion size hsize).maps.maps.toList = [(0x1000, 0)] := rfl
  have hget : (oneRegion size hsize).maps.memSlab.get 0 =
      some (Maps.freshMem "heap" 0x1000 size Maps.readWrite) := rfl
  have hne : (Maps.freshMem "heap" 0x1000 size Maps.readWrite).size ≠ 0 := by
    rw [Maps.freshMem_size]
    exact hpos.ne'
  unfold regions collectMemoryRegions
  rw [hmaps, filterMap_cons, hget, bind_some, if_neg hne]
  rfl

theorem oneRegion_modules (hpos : 0 < size) : (oneRegion size hsize).modules = [] := by
  have hstrip : Text.stripSuffix ".pe".toList "heap".toList = none := by decide +kernel
  unfold modules collectModules
  rw [oneRegion_regions size hsize hpos]
  simp only [filterMap_cons, filterMap_nil, hstrip, map_none]

theorem oneRegion_threadRva (hpos : 0 < size) (haligned : 4 ∣ size) :
    (oneRegion size hsize).threadRva = size + 236 := by
  have hmemory : (oneRegion size hsize).memoryLen = 20 + size := by
    unfold memoryLen
    rw [oneRegion_regions size hsize hpos, map_cons, length_replicate]
    rfl
  have hmodule : (oneRegion size hsize).moduleLen = 4 := by
    unfold moduleLen
    rw [oneRegion_modules size hsize hpos]
    rfl
  unfold threadRva moduleEnd systemInfoEnd memoryInfoEnd memoryEnd up4
  rw [hmemory, hmodule, oneRegion_regions size hsize hpos, length_singleton]
  omega

end OneRegion

/-- The region leaves 288 bytes below 4 GiB: the thread list starts 52 bytes below, and the context
of its thread would start at 4 GiB. -/
def nearlyFull : Emu := oneRegion 0xfffffee0 (by decide)

theorem context_wraps : ∃ file, writeToFile nearlyFull = .ok file ∧
    ¬ Consistent nearlyFull file := by
  have hrva : nearlyFull.threadRva = 0xffffffcc :=
    oneRegion_threadRva 0xfffffee0 (by decide) (by decide) (by decide)
  have hfits : nearlyFull.Fits := by
    rw [fits_iff, hrva]
    decide
  obtain ⟨file, hok⟩ := hfits.exists_file
  refine ⟨file, hok, fun hconsistent => ?_⟩
  have hlt := (laid_of_writeToFile hok).contextOff_lt hconsistent zero_lt_one
  rw [contextOff, hrva] at hlt
  exact absurd hlt (by decide)

end Emu

end Mwemu.Minidump
