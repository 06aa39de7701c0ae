import Mwemu.Lib.HostInt
import Mwemu.Lib.PartitionPoint
import Mwemu.Lib.Run

/-!
# The kernel allocation ledger

`KernelHeap` hands out addresses from two windows, one for the slab and one for vmalloc and page
allocations, each with a cursor that only moves up. All chunks are appended to one vector in the
order of the calls, and `indexOf` finds the chunk of an address by a binary search over it.

A step of a run is one call of `recordAlloc` that records a chunk. In every layout the slab window
lies below the vmalloc window, so the vector is ascending, and the search exact, just when no slab
chunk was recorded after a chunk of the other window.
-/

namespace Mwemu.Kernel

open Mwemu.Lib List Option

inductive KernelOs where
  | linux
  | windows
  | macOS
  deriving DecidableEq, Repr

/-- The part of `KernelLayout` that the allocators read. -/
structure KernelLayout where
  heapBase : Nat
  heapSize : Nat
  vmallocBase : Nat
  vmallocSize : Nat

def heapRedzone : Nat := 0x1000

def KernelLayout.forOs : KernelOs → KernelLayout
  | .linux => ⟨0xffff888000000000, 0x10000000, 0xffffc90000000000, 0x10000000⟩
  | .windows => ⟨0xffffe00000000000, 0x10000000, 0xffffe10000000000, 0x10000000⟩
  | .macOS => ⟨0xffffff9000000000, 0x10000000, 0xffffff9100000000, 0x10000000⟩

inductive Region where
  | slab
  | vmalloc
  | pages
  deriving DecidableEq, Repr

def Region.onSlab : Region → Bool
  | .slab => true
  | .vmalloc | .pages => false

inductive ChunkState where
  | live
  | freed
  deriving DecidableEq, Repr

structure KernelChunk where
  addr : Nat
  size : Nat
  reqSize : UInt64
  region : Region
  state : ChunkState
  cache : String
  mapName : String
  allocApi : String
  allocPos : UInt64
  allocRip : UInt64
  freeApi : String
  freePos : UInt64
  freeRip : UInt64
  deriving DecidableEq, Repr

def KernelChunk.contains (c : KernelChunk) (addr : Nat) : Bool :=
  c.addr ≤ addr && addr < c.addr + c.size

structure KernelHeap where
  slabCursor : Nat
  slabEnd : Nat
  vmallocCursor : Nat
  vmallocEnd : Nat
  chunks : List KernelChunk
  serial : Nat
  deriving DecidableEq, Repr

namespace KernelHeap

def new (slabBase slabSize vmallocBase vmallocSize : Nat) : KernelHeap where
  slabCursor := slabBase
  slabEnd := slabBase + slabSize
  vmallocCursor := vmallocBase
  vmallocEnd := vmallocBase + vmallocSize
  chunks := []
  serial := 0

def forOs (os : KernelOs) : KernelHeap :=
  let layout := KernelLayout.forOs os
  new layout.heapBase layout.heapSize layout.vmallocBase layout.vmallocSize

end KernelHeap

def nextMultipleOf (a m : Nat) : Option Nat :=
  match a % m with
  | 0 => some a
  | r => addU64 a (m - r)

def buckets : List Nat := [8, 16, 32, 64, 96, 128, 192, 256, 512, 1024, 2048, 4096]

def bucket (size : Nat) : Option Nat :=
  match buckets.find? (size ≤ ·) with
  | some b => some b
  | none => nextMultipleOf size 0x1000

/-- The arguments of a call of `record_alloc`. -/
structure AllocCall where
  region : Region
  reqSize : UInt64
  cache : String
  api : String
  pos : UInt64
  rip : UInt64

def chunkSize (call : AllocCall) : Option Nat :=
  match call.region with
  | .slab => bucket (max call.reqSize.toNat 1)
  | .vmalloc | .pages => nextMultipleOf (max call.reqSize.toNat 1) 0x1000

namespace KernelHeap

def cursor (h : KernelHeap) : Region → Nat
  | .slab => h.slabCursor
  | .vmalloc | .pages => h.vmallocCursor

def windowEnd (h : KernelHeap) : Region → Nat
  | .slab => h.slabEnd
  | .vmalloc | .pages => h.vmallocEnd

def setCursor (h : KernelHeap) (cursor : Nat) : Region → KernelHeap
  | .slab => { h with slabCursor := cursor }
  | .vmalloc | .pages => { h with vmallocCursor := cursor }

def recordAlloc (h : KernelHeap) (call : AllocCall) :
    Option (KernelHeap × Option KernelChunk) := do
  let size ← chunkSize call
  let addr ← nextMultipleOf (h.cursor call.region) 16
  let next ← addU64 (← addU64 addr size) heapRedzone
  if h.windowEnd call.region < next then return (h, none)
  let serial ← addU64 h.serial 1
  let chunk : KernelChunk := {
    addr := addr
    size := size
    reqSize := call.reqSize
    region := call.region
    state := .live
    cache := call.cache
    mapName := call.cache ++ "#" ++ toString serial
    allocApi := call.api
    allocPos := call.pos
    allocRip := call.rip
    freeApi := ""
    freePos := 0
    freeRip := 0 }
  return ({ h.setCursor next call.region with serial := serial, chunks := h.chunks ++ [chunk] },
    some chunk)

def recorded (h : KernelHeap) (call : AllocCall) : Option KernelHeap :=
  match h.recordAlloc call with
  | some (h', some _) => some h'
  | _ => none

def indexOf (h : KernelHeap) (addr : Nat) : Option Nat :=
  let idx := partitionPoint (fun c : KernelChunk => decide (c.addr ≤ addr)) h.chunks
  if hidx : idx = 0 then none
  else
    have hlt : idx - 1 < h.chunks.length :=
      Nat.lt_of_lt_of_le (Nat.sub_one_lt hidx) (partitionPoint_le _ _)
    if h.chunks[idx - 1].contains addr then some (idx - 1) else none

theorem indexOf_eq_some_iff {h : KernelHeap} {addr i : Nat} : h.indexOf addr = some i ↔
      partitionPoint (fun c : KernelChunk => decide (c.addr ≤ addr)) h.chunks = i + 1 ∧
        ∃ c, h.chunks[i]? = some c ∧ c.contains addr := by
  have hle := partitionPoint_le (fun c : KernelChunk => decide (c.addr ≤ addr)) h.chunks
  simp only [indexOf]
  split
  · next hzero => simp [hzero]
  · next hidx =>
    -- The slot that is read exists, so the read is one of the option-valued kind.
    have hget := List.getElem?_eq_getElem (Nat.lt_of_lt_of_le (Nat.sub_one_lt hidx) hle)
    constructor
    · intro hsome
      split at hsome
      · next hcontains =>
        obtain rfl := Option.some.inj hsome
        exact ⟨by omega, _, hget, hcontains⟩
      · cases hsome
    · rintro ⟨hi, c, hc, hcontains⟩
      obtain rfl : _ - 1 = i := Nat.sub_eq_of_eq_add hi
      obtain rfl := Option.some.inj (hget.symm.trans hc)
      rw [if_pos hcontains]

end KernelHeap

/-! ## What a recorded chunk looks like -/

theorem le_nextMultipleOf {a m b : Nat} (hb : nextMultipleOf a m = some b) : a ≤ b := by
  rw [nextMultipleOf] at hb
  split at hb
  · exact Nat.le_of_eq (Option.some.inj hb)
  · have := addU64_eq_some hb
    omega

variable {call : AllocCall}

theorem chunkSize_pos {size : Nat} (hsize : chunkSize call = some size) : 0 < size := by
  have hreq : 0 < max call.reqSize.toNat 1 := by omega
  rw [chunkSize] at hsize
  split at hsize
  · rw [bucket] at hsize
    split at hsize
    · next b hb =>
      have hle : max call.reqSize.toNat 1 ≤ b := by simpa using List.find?_some hb
      have := Option.some.inj hsize
      omega
    · exact Nat.lt_of_lt_of_le hreq (le_nextMultipleOf hsize)
  all_goals exact Nat.lt_of_lt_of_le hreq (le_nextMultipleOf hsize)

namespace KernelHeap

variable {h : KernelHeap}

theorem cursor_congr {r r' : Region} (hr : r.onSlab = r'.onSlab) : h.cursor r = h.cursor r' := by
  cases r <;> cases r' <;> first | rfl | cases hr

@[simp]
theorem cursor_setCursor (h : KernelHeap) (next : Nat) (r r' : Region) :
    (h.setCursor next r).cursor r' = if r'.onSlab = r.onSlab then next else h.cursor r' := by
  cases r <;> cases r' <;> rfl

@[simp]
theorem windowEnd_setCursor (h : KernelHeap) (next : Nat) (r r' : Region) :
    (h.setCursor next r).windowEnd r' = h.windowEnd r' := by
  cases r <;> cases r' <;> rfl

@[simp]
theorem cursor_withChunks (h : KernelHeap) (serial : Nat) (chunks : List KernelChunk) (r : Region) :
    { h with serial := serial, chunks := chunks }.cursor r = h.cursor r := by
  cases r <;> rfl

@[simp]
theorem windowEnd_withChunks (h : KernelHeap) (serial : Nat) (chunks : List KernelChunk)
    (r : Region) : { h with serial := serial, chunks := chunks }.windowEnd r = h.windowEnd r := by
  cases r <;> rfl

/-- What a step that records a chunk does to the ledger. -/
structure Records (h h' : KernelHeap) (call : AllocCall) (c : KernelChunk) : Prop where
  chunks : h'.chunks = h.chunks ++ [c]
  region : c.region = call.region
  pos : 0 < c.size
  cursor_le : h.cursor call.region ≤ c.addr
  fits : c.addr + c.size ≤ h'.cursor call.region
  inside : h'.cursor call.region ≤ h.windowEnd call.region
  cursor : ∀ r : Region, h'.cursor r =
    if r.onSlab = call.region.onSlab then h'.cursor call.region else h.cursor r
  windowEnd : ∀ r, h'.windowEnd r = h.windowEnd r

variable {h' : KernelHeap} {c : KernelChunk}

theorem records_of_recordAlloc (hrec : h.recordAlloc call = some (h', some c)) :
    Records h h' call c := by
  simp only [recordAlloc, bind_eq_bind, bind_eq_some_iff] at hrec
  obtain ⟨size, hsize, addr, haddr, sum, hsum, next, hnext, hrec⟩ := hrec
  split at hrec
  · cases hrec
  · next hwindow =>
    simp only [bind_eq_some_iff] at hrec
    obtain ⟨serial, hserial, hrec⟩ := hrec
    cases hrec
    have hsum := addU64_eq_some hsum
    have hnext := addU64_eq_some hnext
    refine ⟨rfl, rfl, chunkSize_pos hsize, le_nextMultipleOf haddr, ?_, ?_, ?_, ?_⟩
    · simp only [cursor_withChunks, cursor_setCursor, if_true]
      omega
    · simp only [cursor_withChunks, cursor_setCursor, if_true]
      omega
    · simp only [cursor_withChunks, cursor_setCursor, if_true, implies_true]
    · simp only [windowEnd_withChunks, windowEnd_setCursor, implies_true]

theorem records_of_recorded (hstep : h.recorded call = some h') : ∃ c, Records h h' call c := by
  rw [recorded] at hstep
  split at hstep
  · next h'' c hrec =>
    obtain rfl := Option.some.inj hstep
    exact ⟨c, records_of_recordAlloc hrec⟩
  · cases hstep

/-! ## The invariant of the ledger -/

/-- Chunks of one window ascend without overlap below its cursor, and everything of the slab window
lies below everything of the other. -/
structure Ledger (h : KernelHeap) : Prop where
  windows : ∀ c ∈ h.chunks, c.region.onSlab = false → h.slabEnd ≤ c.addr
  vmalloc : h.slabEnd ≤ h.vmallocCursor
  pos : ∀ c ∈ h.chunks, 0 < c.size
  below : ∀ c ∈ h.chunks, c.addr + c.size ≤ h.cursor c.region
  slabCursor : h.slabCursor ≤ h.slabEnd
  ascending : h.chunks.Pairwise fun c d =>
    c.region.onSlab = d.region.onSlab → c.addr + c.size ≤ d.addr

theorem ledger_forOs (os : KernelOs) : Ledger (forOs os) := by
  cases os <;> exact ⟨by simp [forOs, new], by decide, by simp [forOs, new], by simp [forOs, new],
    by decide, by simp [forOs, new]⟩

theorem Records.cursor_mono (hrec : Records h h' call c) (r : Region) :
    h.cursor r ≤ h'.cursor r := by
  rw [hrec.cursor]
  split
  · next hr =>
    calc
      h.cursor r = h.cursor call.region := cursor_congr hr
      _ ≤ c.addr := hrec.cursor_le
      _ ≤ c.addr + c.size := Nat.le_add_right _ _
      _ ≤ h'.cursor call.region := hrec.fits
  · exact Nat.le_refl _

theorem Ledger.records (hh : Ledger h) (hrec : Records h h' call c) : Ledger h' := by
  have hslabEnd : h'.slabEnd = h.slabEnd := hrec.windowEnd .slab
  have hvmalloc : h.slabEnd ≤ h'.vmallocCursor :=
    Nat.le_trans hh.vmalloc (hrec.cursor_mono .vmalloc)
  refine ⟨?_, ?_, ?_, ?_, ?_, ?_⟩
  · rw [hrec.chunks, hslabEnd, forall_mem_append, forall_mem_singleton]
    refine ⟨hh.windows, fun hc => ?_⟩
    calc
      h.slabEnd ≤ h.vmallocCursor := hh.vmalloc
      _ = h.cursor call.region := cursor_congr (r := .vmalloc) (hrec.region ▸ hc.symm)
      _ ≤ c.addr := hrec.cursor_le
  · rwa [hslabEnd]
  · rw [hrec.chunks, forall_mem_append, forall_mem_singleton]
    exact ⟨hh.pos, hrec.pos⟩
  · rw [hrec.chunks, forall_mem_append, forall_mem_singleton, hrec.region]
    exact ⟨fun d hd => Nat.le_trans (hh.below d hd) (hrec.cursor_mono d.region), hrec.fits⟩
  · have hslab := hrec.cursor .slab
    split at hslab
    · next hr =>
      calc
        h'.slabCursor = h'.cursor call.region := hslab
        _ ≤ h.windowEnd call.region := hrec.inside
        _ = h'.slabEnd := by
          rw [← hrec.windowEnd]
          cases hregion : call.region <;> rw [hregion] at hr <;> first | rfl | cases hr
    · rw [hslabEnd]
      exact Nat.le_trans (Nat.le_of_eq hslab) hh.slabCursor
  · rw [hrec.chunks, pairwise_append]
    refine ⟨hh.ascending, pairwise_singleton _ _, fun d hd e he hslab => ?_⟩
    obtain rfl := mem_singleton.mp he
    calc
      d.addr + d.size ≤ h.cursor d.region := hh.below d hd
      _ = h.cursor call.region := cursor_congr (hrec.region ▸ hslab)
      _ ≤ e.addr := hrec.cursor_le

theorem Ledger.slab_lt (hh : Ledger h) {d : KernelChunk} (hc : c ∈ h.chunks) (hd : d ∈ h.chunks)
    (hslab : c.region.onSlab = true) (hother : d.region.onSlab = false) :
    c.addr + c.size ≤ d.addr :=
  calc
    c.addr + c.size ≤ h.cursor c.region := hh.below c hc
    _ = h.cursor .slab := cursor_congr hslab
    _ ≤ h.slabEnd := hh.slabCursor
    _ ≤ d.addr := hh.windows d hd hother

/-! ## When the lookup is exact -/

/-- No slab chunk comes after a chunk of the other window. -/
def SlabFirst (regions : List Region) : Prop :=
  regions.Pairwise fun r r' => r'.onSlab → r.onSlab

instance (regions : List Region) : Decidable (SlabFirst regions) :=
  inferInstanceAs (Decidable (List.Pairwise _ _))

/-- The lookup returns a chunk just when it covers the address. -/
def Exact (h : KernelHeap) : Prop :=
  ∀ addr i, h.indexOf addr = some i ↔ ∃ c, h.chunks[i]? = some c ∧ c.contains addr

theorem Ledger.ascending_of_slabFirst (hh : Ledger h)
    (hfirst : SlabFirst (h.chunks.map KernelChunk.region)) :
    h.chunks.Pairwise fun c d => c.addr + c.size ≤ d.addr := by
  rw [SlabFirst, pairwise_map] at hfirst
  refine (hh.ascending.and hfirst).imp_of_mem fun {c d} hc hd hcd => ?_
  obtain ⟨hsame, hslab⟩ := hcd
  cases hcr : c.region.onSlab <;> cases hdr : d.region.onSlab
  · exact hsame (hcr.trans hdr.symm)
  · rw [hslab hdr] at hcr
    cases hcr
  · exact hh.slab_lt hc hd hcr hdr
  · exact hsame (hcr.trans hdr.symm)

theorem exact_of_ascending (hasc : h.chunks.Pairwise fun c d => c.addr + c.size ≤ d.addr) :
    Exact h := by
  intro addr i
  rw [indexOf_eq_some_iff]
  refine and_iff_right_of_imp ?_
  rintro ⟨c, hc, hcontains⟩
  obtain ⟨ys, zs, hsplit, hys, hzs⟩ :=
    exists_split_of_pairwise (p := fun c : KernelChunk => decide (c.addr ≤ addr))
      (hasc.imp fun {a b} hab => by simp only [decide_eq_true_eq]; omega)
  simp only [KernelChunk.contains, Bool.and_eq_true, decide_eq_true_eq] at hcontains
  have hi : i < ys.length := by
    have hany := any_getElem?_append hys hzs i
    rw [← hsplit, hc, any_some, decide_eq_decide] at hany
    exact hany.mp hcontains.1
  rw [hsplit, partitionPoint_append hys hzs]
  by_contra hlast
  -- A later chunk that starts at or below the address would start inside this one.
  have hnext : i + 1 < ys.length := by omega
  have hc' : ys[i] = c := by
    rw [hsplit, List.getElem?_append_left hi, List.getElem?_eq_getElem hi] at hc
    exact Option.some.inj hc
  have hle := of_decide_eq_true (hys _ (getElem_mem hnext))
  have hys' : ys.Pairwise fun c d => c.addr + c.size ≤ d.addr :=
    (pairwise_append.mp (hsplit ▸ hasc)).1
  have hstart := pairwise_iff_getElem.mp hys' i (i + 1) hi hnext (Nat.lt_succ_self i)
  rw [hc'] at hstart
  omega

/-- The address of the last chunk that has a slab chunk after it is missed: the search ends at that
slab chunk. -/
theorem Ledger.slabFirst_of_exact (hh : Ledger h) (hexact : Exact h) :
    SlabFirst (h.chunks.map KernelChunk.region) := by
  rw [SlabFirst, pairwise_map]
  by_contra hnot
  obtain ⟨ws, v, ys, zs, hsplit, hv, hne, hys, hzs⟩ := exists_inversion_of_not_pairwise hnot
  have hother : v.region.onSlab = false := Bool.eq_false_iff.mpr hv
  have hvmem : v ∈ h.chunks := by simp [hsplit]
  have hpos := hh.pos v hvmem
  have hslab : ∀ c ∈ h.chunks, c.region.onSlab = true → c.addr ≤ v.addr := fun c hc hcs => by
    have := hh.slab_lt hc hvmem hcs hother
    omega
  have hasc := hh.ascending
  rw [hsplit, pairwise_append, pairwise_cons] at hasc
  obtain ⟨-, ⟨hafter, -⟩, hbefore⟩ := hasc
  have hpoint : partitionPoint (fun c : KernelChunk => decide (c.addr ≤ v.addr)) h.chunks =
      (ws ++ v :: ys).length := by
    rw [hsplit, ← cons_append, ← append_assoc]
    apply partitionPoint_append
    · intro c hc
      rw [decide_eq_true_eq]
      cases hcs : c.region.onSlab with
      | true => exact hslab c (by rw [hsplit]; simp at hc ⊢; tauto) hcs
      | false =>
        rcases mem_append.mp hc with hw | hy
        · have := hbefore c hw v mem_cons_self (hcs.trans hother.symm)
          omega
        · rcases mem_cons.mp hy with rfl | hy
          · exact Nat.le_refl _
          · rw [hys c hy] at hcs
            cases hcs
    · intro z hz
      have := hafter z (mem_append_right _ hz)
        (hother.trans (Bool.eq_false_iff.mpr (hzs z hz)).symm)
      rw [decide_eq_true_eq]
      omega
  have hfound : h.indexOf v.addr = some ws.length := by
    refine (hexact v.addr ws.length).mpr ⟨v, by rw [hsplit]; simp, ?_⟩
    simp only [KernelChunk.contains, Bool.and_eq_true, decide_eq_true_eq]
    omega
  rw [indexOf_eq_some_iff, hpoint, length_append, length_cons] at hfound
  exact hne (length_eq_zero_iff.mp (by omega))

theorem ledger_of_run {calls : List AllocCall} (hh : Ledger h)
    (hrun : run recorded h calls = some h') : Ledger h' ∧ h'.chunks.map KernelChunk.region =
      h.chunks.map KernelChunk.region ++ calls.map AllocCall.region := by
  induction calls generalizing h with
  | nil =>
    cases hrun
    exact ⟨hh, (append_nil _).symm⟩
  | cons call calls ih =>
    rw [run, bind_eq_some_iff] at hrun
    obtain ⟨t, hstep, hrun⟩ := hrun
    obtain ⟨c, hrec⟩ := records_of_recorded hstep
    obtain ⟨hh', hregions⟩ := ih (hh.records hrec) hrun
    refine ⟨hh', hregions.trans ?_⟩
    rw [hrec.chunks, map_append, append_assoc, map_singleton, hrec.region,
      singleton_append, map_cons]

/-- After any calls that record their chunks, the lookup is exact just when no slab call came after
a vmalloc or pages call. -/
theorem indexOf_exact_iff_slabFirst (os : KernelOs) (calls : List AllocCall) (h : KernelHeap)
    (hrun : run recorded (forOs os) calls = some h) :
    (∀ addr i, h.indexOf addr = some i ↔ ∃ c, h.chunks[i]? = some c ∧ c.contains addr) ↔
      SlabFirst (calls.map AllocCall.region) := by
  obtain ⟨hh, hregions⟩ := ledger_of_run (ledger_forOs os) hrun
  have hchunks : h.chunks.map KernelChunk.region = calls.map AllocCall.region := hregions
  rw [← hchunks]
  exact ⟨hh.slabFirst_of_exact, fun hfirst => exact_of_ascending (hh.ascending_of_slabFirst hfirst)⟩

def kmalloc64 : AllocCall := ⟨.slab, 64, "kmalloc-64", "kmalloc", 1, 0xffffffffc0000010⟩

def vmallocPage : AllocCall := ⟨.vmalloc, 0x800, "vmalloc", "vmalloc", 2, 0xffffffffc0000020⟩

/-- A slab chunk and then a vmalloc chunk are both found. -/
theorem indexOf_exact_iff_slabFirst_linux :
    ∃ h, run recorded (forOs .linux) [kmalloc64, vmallocPage] = some h ∧
      ∀ addr i, h.indexOf addr = some i ↔ ∃ c, h.chunks[i]? = some c ∧ c.contains addr := by
  obtain ⟨h, hrun⟩ := isSome_iff_exists.mp
    (by decide : (run recorded (forOs .linux) [kmalloc64, vmallocPage]).isSome = true)
  exact ⟨h, hrun, (indexOf_exact_iff_slabFirst .linux _ h hrun).mpr (by decide)⟩

/-- In the other order the vmalloc chunk is not found at its own address. -/
theorem indexOf_misses_vmalloc_chunk :
    ∃ h c, run recorded (forOs .linux) [vmallocPage, kmalloc64] = some h ∧
      h.chunks[0]? = some c ∧ c.contains 0xffffc90000000000 ∧ h.indexOf 0xffffc90000000000 = none :=
  ⟨_, _, rfl, rfl, by decide, by decide⟩

end KernelHeap

end Mwemu.Kernel
