import Mwemu.Kernel.Env

/-!
# What calls do to the ledger

An allocation appends a live chunk behind the cursor of its window or leaves the chunks alone, a
release marks one live chunk as freed or leaves them alone, and a report touches only findings. The
chunks therefore stay apart from each other and in their windows along every run.
-/

namespace Mwemu.Kernel

open Mwemu.Lib List Option

/-! ### Recorded chunks -/

variable {call : AllocCall}

theorem le_chunkSize {size : Nat} (hsize : chunkSize call = some size) :
    call.reqSize.toNat ≤ size := by
  have hreq : call.reqSize.toNat ≤ max call.reqSize.toNat 1 := Nat.le_max_left _ _
  rw [chunkSize] at hsize
  split at hsize
  · rw [bucket] at hsize
    split at hsize
    · next b hb =>
      have hle : max call.reqSize.toNat 1 ≤ b := by simpa using List.find?_some hb
      exact Option.some.inj hsize ▸ Nat.le_trans hreq hle
    · exact Nat.le_trans hreq (le_nextMultipleOf hsize)
  all_goals exact Nat.le_trans hreq (le_nextMultipleOf hsize)

namespace KernelHeap

structure Fresh (h h' : KernelHeap) (call : AllocCall) (c : KernelChunk) : Prop where
  size : chunkSize call = some c.size
  addr : nextMultipleOf (h.cursor call.region) 16 = some c.addr
  reqSize : c.reqSize = call.reqSize
  live : c.state = .live
  allocRip : c.allocRip = call.rip
  serial : h'.serial = h.serial + 1
  mapName : c.mapName = call.cache ++ "#" ++ toString h'.serial
  next : h'.cursor call.region = c.addr + c.size + heapRedzone

theorem recordAlloc_cases {h h' : KernelHeap} {r : Option KernelChunk}
    (hrec : h.recordAlloc call = some (h', r)) :
    r = none ∧ h' = h ∨ ∃ c, r = some c ∧ Records h h' call c ∧ Fresh h h' call c := by
  have hrecord : ∀ c, r = some c → Records h h' call c := fun c hc =>
    records_of_recordAlloc (hc ▸ hrec)
  simp only [recordAlloc, bind_eq_bind, bind_eq_some_iff] at hrec
  obtain ⟨size, hsize, addr, haddr, sum, hsum, next, hnext, hrec⟩ := hrec
  split at hrec
  · cases hrec
    exact .inl ⟨rfl, rfl⟩
  simp only [bind_eq_some_iff] at hrec
  obtain ⟨serial, hserial, hrec⟩ := hrec
  cases hrec
  refine .inr ⟨_, rfl, hrecord _ rfl, hsize, haddr, rfl, rfl, rfl, ?_, rfl, ?_⟩
  · exact (addU64_eq_some hserial).symm
  · simp only [cursor_withChunks, cursor_setCursor, if_true]
    rw [← addU64_eq_some hnext, ← addU64_eq_some hsum]

end KernelHeap

/-! ### The calls -/

section Calls

variable {e e' : KernelEmu}

/-- What an allocation did: nothing but count, or a chunk in the ledger, mapped or not. -/
inductive Allocates (e e' : KernelEmu) (call : AllocCall) (zeroed : Bool) (ptr : Nat) : Prop where
  | refused (hptr : ptr = 0) (hmaps : e'.maps = e.maps)
      (hkernel : e'.kernel = { e.kernel with allocCount := e.kernel.allocCount + 1 })
  | recorded (heap : KernelHeap) (c : KernelChunk)
      (hrec : e.kernel.heap.recordAlloc call = some (heap, some c))
      (hmap : mapChunk e.maps c zeroed = some (e'.maps, ptr))
      (hkernel : e'.kernel = { e.kernel with heap, allocCount := e.kernel.allocCount + 1 })

theorem allocates_of_kernelAlloc {zeroed : Bool} {ptr : Nat}
    (halloc : e.kernelAlloc call zeroed = some (e', ptr)) : Allocates e e' call zeroed ptr := by
  unfold KernelEmu.kernelAlloc at halloc
  simp only at halloc
  split at halloc
  · cases halloc
    exact .refused rfl rfl rfl
  simp only [bind_eq_bind, bind_eq_some_iff] at halloc
  obtain ⟨⟨heap, r⟩, hrec, halloc⟩ := halloc
  cases r with
  | none =>
    cases halloc
    obtain ⟨-, rfl⟩ | ⟨c, hc, -⟩ := KernelHeap.recordAlloc_cases hrec
    · exact .refused rfl rfl rfl
    · cases hc
  | some c =>
    simp only [bind_eq_some_iff] at halloc
    obtain ⟨⟨m, ptr'⟩, hmap, halloc⟩ := halloc
    cases halloc
    exact .recorded heap c hrec hmap rfl

def KernelHeap.baseChunk (h : KernelHeap) (addr : Nat) : Option (Nat × KernelChunk) :=
  (h.indexOfBase addr).bind fun i => h.chunks[i]?.map (Prod.mk i)

inductive Frees (e e' : KernelEmu) (ptr : UInt64) (api : String) (pos rip : UInt64) :
    Bool → Prop where
  | null (hptr : ptr = 0) (he : e' = e) : Frees e e' ptr api pos rip true
  | invalid (hptr : ptr ≠ 0) (hbase : e.kernel.heap.baseChunk ptr.toNat = none)
      (he : e' = e.kernelReport .invalidFree pos rip ptr.toNat 0
        (((e.kernel.heap.chunkAt ptr.toNat).map KernelChunk.origin).getD {})) :
      Frees e e' ptr api pos rip false
  | double (hptr : ptr ≠ 0) (idx : Nat) (c : KernelChunk)
      (hbase : e.kernel.heap.baseChunk ptr.toNat = some (idx, c)) (hfreed : c.isFreed = true)
      (he : e' = e.kernelReport .doubleFree pos rip ptr.toNat 0 c.origin) :
      Frees e e' ptr api pos rip false
  | done (hptr : ptr ≠ 0) (idx : Nat) (c : KernelChunk)
      (hbase : e.kernel.heap.baseChunk ptr.toNat = some (idx, c)) (hlive : c.isFreed = false)
      (hmaps : poison e.maps c.addr c.size = some e'.maps)
      (hkernel : e'.kernel = { e.kernel with
        heap := e.kernel.heap.recordFree idx api pos rip }) : Frees e e' ptr api pos rip true

theorem frees_of_kernelFree {ptr : UInt64} {api : String} {pos rip : UInt64} {ok : Bool}
    (hfree : e.kernelFree ptr api pos rip = some (e', ok)) : Frees e e' ptr api pos rip ok := by
  unfold KernelEmu.kernelFree at hfree
  split at hfree
  · next hptr =>
    cases hfree
    exact .null hptr rfl
  · next hptr =>
    split at hfree
    · next hbase =>
      cases hfree
      exact .invalid hptr hbase rfl
    · next idx c hbase =>
      split at hfree
      · next hfreed =>
        cases hfree
        exact .double hptr idx c hbase hfreed rfl
      · next hlive =>
        simp only [bind_eq_bind, bind_eq_some_iff] at hfree
        obtain ⟨m, hm, hfree⟩ := hfree
        cases hfree
        exact .done hptr idx c hbase (Bool.eq_false_iff.mpr hlive) hm rfl

end Calls

/-! ### Chunks in their windows -/

def KernelLayout.base (layout : KernelLayout) : Region → Nat
  | .slab => layout.heapBase
  | .vmalloc | .pages => layout.vmallocBase

def KernelLayout.windowSize (layout : KernelLayout) : Region → Nat
  | .slab => layout.heapSize
  | .vmalloc | .pages => layout.vmallocSize

namespace KernelHeap

/-- The chunks lie in the windows of the layout, and each has taken at least a redzone of them. -/
structure Sound (os : KernelOs) (h : KernelHeap) : Prop where
  ledger : Ledger h
  window : ∀ r,
    h.windowEnd r = (KernelLayout.forOs os).base r + (KernelLayout.forOs os).windowSize r
  cursor : ∀ r, (KernelLayout.forOs os).base r ≤ h.cursor r ∧ h.cursor r ≤ h.windowEnd r
  low : ∀ c ∈ h.chunks, (KernelLayout.forOs os).base c.region ≤ c.addr
  fits : ∀ c ∈ h.chunks, c.reqSize.toNat ≤ c.size
  serial : h.serial * heapRedzone + (KernelLayout.forOs os).base .slab +
    (KernelLayout.forOs os).base .vmalloc ≤ h.cursor .slab + h.cursor .vmalloc

theorem sound_forOs (os : KernelOs) : Sound os (forOs os) := by
  refine ⟨ledger_forOs os, fun r => ?_, fun r => ?_, by simp [forOs, new], by simp [forOs, new], ?_⟩
  · cases os <;> cases r <;> rfl
  · cases os <;> cases r <;> decide
  · cases os <;> decide

variable {os : KernelOs} {h h' : KernelHeap} {call : AllocCall} {c : KernelChunk}

theorem Sound.records (hs : Sound os h) (hrec : Records h h' call c)
    (hfresh : Fresh h h' call c) : Sound os h' := by
  have hadvance : h.cursor call.region + heapRedzone ≤ h'.cursor call.region := by
    have hlow := hrec.cursor_le
    have hnext := hfresh.next
    omega
  refine ⟨hs.ledger.records hrec, fun r => (hrec.windowEnd r).trans (hs.window r), fun r => ?_,
    ?_, ?_, ?_⟩
  · refine ⟨Nat.le_trans (hs.cursor r).1 (hrec.cursor_mono r), ?_⟩
    rw [hrec.windowEnd, hrec.cursor]
    split
    · next hr =>
      have hend : h.windowEnd r = h.windowEnd call.region := by
        rw [hs.window, hs.window]
        cases os <;> cases r <;> cases hcall : call.region <;> rw [hcall] at hr <;>
          first | rfl | cases hr
      rw [hend]
      exact hrec.inside
    · exact (hs.cursor r).2
  · rw [hrec.chunks, forall_mem_append, forall_mem_singleton, hrec.region]
    exact ⟨hs.low, Nat.le_trans (hs.cursor call.region).1 hrec.cursor_le⟩
  · rw [hrec.chunks, forall_mem_append, forall_mem_singleton, hfresh.reqSize]
    exact ⟨hs.fits, le_chunkSize hfresh.size⟩
  · have hserial := hs.serial
    have hslab := hrec.cursor_mono .slab
    have hvmalloc := hrec.cursor_mono .vmalloc
    rw [hfresh.serial, Nat.succ_mul]
    cases hcall : call.region with
    | slab =>
      rw [hcall] at hadvance
      omega
    | vmalloc =>
      rw [hcall] at hadvance
      omega
    | pages =>
      rw [hcall] at hadvance
      have hsame : h'.cursor .pages = h'.cursor .vmalloc := rfl
      have hsame' : h.cursor .pages = h.cursor .vmalloc := rfl
      omega

def span (c : KernelChunk) : Nat × Nat × Region × UInt64 := (c.addr, c.size, c.region, c.reqSize)

theorem mem_of_map_span (hspans : h'.chunks.map span = h.chunks.map span) (hc : c ∈ h'.chunks) :
    ∃ d ∈ h.chunks, d.addr = c.addr ∧ d.size = c.size ∧ d.region = c.region ∧
      d.reqSize = c.reqSize := by
  have hmem : span c ∈ h.chunks.map span := hspans ▸ mem_map_of_mem hc
  obtain ⟨d, hd, hspan⟩ := mem_map.mp hmem
  simp only [span, Prod.mk.injEq] at hspan
  exact ⟨d, hd, hspan⟩

theorem Ledger.of_spans (hh : Ledger h) (hspans : h'.chunks.map span = h.chunks.map span)
    (hslab : h'.slabEnd = h.slabEnd) (hcursor : ∀ r, h'.cursor r = h.cursor r) : Ledger h' := by
  refine ⟨fun c hc => ?_, ?_, fun c hc => ?_, fun c hc => ?_, ?_, ?_⟩
  · obtain ⟨d, hd, haddr, -, hregion, -⟩ := mem_of_map_span hspans hc
    rw [hslab, ← haddr, ← hregion]
    exact hh.windows d hd
  · exact (hslab.le.trans hh.vmalloc).trans (hcursor .vmalloc).symm.le
  · obtain ⟨d, hd, -, hsize, -, -⟩ := mem_of_map_span hspans hc
    exact hsize ▸ hh.pos d hd
  · obtain ⟨d, hd, haddr, hsize, hregion, -⟩ := mem_of_map_span hspans hc
    rw [hcursor, ← haddr, ← hsize, ← hregion]
    exact hh.below d hd
  · exact ((hcursor .slab).le.trans hh.slabCursor).trans hslab.symm.le
  · have hasc : (h.chunks.map span).Pairwise fun s t =>
        s.2.2.1.onSlab = t.2.2.1.onSlab → s.1 + s.2.1 ≤ t.1 := pairwise_map.mpr hh.ascending
    rw [← hspans] at hasc
    exact pairwise_map.mp hasc

theorem map_span_recordFree (h : KernelHeap) (idx : Nat) (api : String) (pos rip : UInt64) :
    (h.recordFree idx api pos rip).chunks.map span = h.chunks.map span := by
  apply ext_getElem?
  intro i
  rw [recordFree, List.getElem?_map, List.getElem?_map, List.getElem?_modify]
  cases h.chunks[i]? with
  | none => rfl
  | some c =>
    rw [Option.map_eq_map, Option.map_some, Option.map_some, Option.map_some]
    split <;> rfl

theorem Sound.recordFree (hs : Sound os h) (idx : Nat) (api : String) (pos rip : UInt64) :
    Sound os (h.recordFree idx api pos rip) := by
  have hspans := h.map_span_recordFree idx api pos rip
  refine ⟨hs.ledger.of_spans hspans rfl fun r => ?_, fun r => ?_, fun r => ?_, fun c hc => ?_,
    fun c hc => ?_, hs.serial⟩
  · cases r <;> rfl
  · rw [← hs.window]
    cases r <;> rfl
  · have hcursor := hs.cursor r
    cases r <;> exact hcursor
  · obtain ⟨d, hd, haddr, -, hregion, -⟩ := mem_of_map_span hspans hc
    rw [← haddr, ← hregion]
    exact hs.low d hd
  · obtain ⟨d, hd, -, hsize, -, hreq⟩ := mem_of_map_span hspans hc
    rw [← hsize, ← hreq]
    exact hs.fits d hd

theorem Ledger.eq_of_contains (hh : Ledger h) {d : KernelChunk} (hc : c ∈ h.chunks)
    (hd : d ∈ h.chunks) {x : Nat} (hcx : c.contains x = true) (hdx : d.contains x = true) :
    c = d := by
  have hapart : h.chunks.Pairwise fun c d => ¬(c.contains x = true ∧ d.contains x = true) := by
    refine hh.ascending.imp_of_mem fun {c d} hc hd hcd hboth => ?_
    simp only [KernelChunk.contains, Bool.and_eq_true, decide_eq_true_eq] at hboth
    cases hcr : c.region.onSlab <;> cases hdr : d.region.onSlab
    · have := hcd (hcr.trans hdr.symm)
      omega
    · have := hh.slab_lt hd hc hdr hcr
      omega
    · have := hh.slab_lt hc hd hcr hdr
      omega
    · have := hcd (hcr.trans hdr.symm)
      omega
  have : Std.Symm fun c d : KernelChunk => ¬(c.contains x = true ∧ d.contains x = true) :=
    ⟨fun _ _ hnot hboth => hnot hboth.symm⟩
  by_contra hne
  exact hapart.forall hc hd hne ⟨hcx, hdx⟩

theorem Sound.stop_lt (hs : Sound os h) (hc : c ∈ h.chunks) : c.addr + c.size < 2 ^ 64 := by
  have hbelow := hs.ledger.below c hc
  have hcursor := (hs.cursor c.region).2
  have hend : h.windowEnd c.region < 2 ^ 64 := by
    rw [hs.window]
    cases os <;> cases c.region <;> decide
  omega

end KernelHeap

/-! ### Runs -/

def KernelChunk.leak (c : KernelChunk) (pos : UInt64) : Finding :=
  ⟨.leak, pos, c.allocRip, c.addr, 0, c.origin, 1⟩

def reportLeaks (pos : UInt64) (findings : List Finding) (chunks : List KernelChunk) :
    List Finding :=
  chunks.foldl (fun fs c => report fs (c.leak pos)) findings

theorem kernelCheckLeaks_eq (e : KernelEmu) (pos : UInt64) : e.kernelCheckLeaks pos = { e with
      kernel.findings := reportLeaks pos e.kernel.findings e.kernel.heap.live } := by
  unfold KernelEmu.kernelCheckLeaks
  generalize e.kernel.heap.live = chunks
  induction chunks generalizing e with
  | nil => rfl
  | cons c chunks ih => exact ih (e.kernelReport .leak pos c.allocRip c.addr 0 c.origin)

open KernelHeap in
theorem sound_of_step {os : KernelOs} {e e' : KernelEmu} {op : KernelOp}
    (hs : Sound os e.kernel.heap) (hstep : op.step e = some e') : Sound os e'.kernel.heap := by
  cases op with
  | alloc call zeroed =>
    obtain ⟨⟨e₁, ptr⟩, halloc, rfl⟩ := map_eq_some_iff.mp hstep
    cases allocates_of_kernelAlloc halloc with
    | refused hptr hmaps hkernel => exact hkernel ▸ hs
    | recorded heap c hrec hmap hkernel =>
      obtain ⟨hnone, -⟩ | ⟨c', hc', hrecords, hfresh⟩ := recordAlloc_cases hrec
      · cases hnone
      · exact hkernel ▸ hs.records hrecords hfresh
  | free ptr api pos rip =>
    obtain ⟨⟨e₁, ok⟩, hfree, rfl⟩ := map_eq_some_iff.mp hstep
    cases frees_of_kernelFree hfree with
    | null hptr he => exact he ▸ hs
    | invalid hptr hbase he => exact he ▸ hs
    | double hptr idx c hbase hfreed he => exact he ▸ hs
    | done hptr idx c hbase hlive hmaps hkernel => exact hkernel ▸ hs.recordFree idx api pos rip
  | checkLeaks pos =>
    cases hstep
    rw [kernelCheckLeaks_eq]
    exact hs

open KernelHeap in
theorem sound_of_run {os : KernelOs} {m : Maps} {e e' : KernelEmu} {ops : List KernelOp}
    (hinit : kernelInit m os = some e) (hrun : run KernelOp.step e ops = some e') :
    Sound os e'.kernel.heap := by
  have hstart : Sound os e.kernel.heap := by
    obtain ⟨m', -, he⟩ := bind_eq_some_iff.mp hinit
    cases he
    exact sound_forOs os
  exact run_preserves (fun e => Sound os e.kernel.heap) (fun _ _ _ hs _ hstep =>
    sound_of_step hs hstep) hstart (along_true e ops) hrun

end Mwemu.Kernel
