import Mwemu.Kernel.Regions

/-!
# Allocations in a fresh environment

`kernelAlloc` takes the next addresses of a window and records the chunk before it asks for the map.
On Linux the kernel stack lies inside the vmalloc window, so a chunk there can run into it: the map
is then refused with the chunk already in the ledger, or created over the stack. Requests near the
end of the address space overflow in the rounding.
-/

namespace Mwemu.Kernel

open Mwemu.Lib Maps Named KernelHeap List Option

def allocStep (e : KernelEmu) (op : AllocCall × Bool) : Option KernelEmu :=
  (e.kernelAlloc op.1 op.2).map Prod.fst

/-- The stores differ at most in the lookup buffer. -/
def SameMaps (m m' : Maps) : Prop := ∃ tlb, m' = { m with tlb := tlb }

/-- The range at `ptr` is a new chunk and a new region, apart from all others and in its window. -/
structure Granted (os : KernelOs) (e e' : KernelEmu) (call : AllocCall) (ptr : Nat)
    (c : KernelChunk) : Prop where
  base : c.addr = ptr
  enough : call.reqSize.toNat ≤ c.size
  recorded : e'.kernel.heap.chunks = e.kernel.heap.chunks ++ [c]
  mapped : Adds e.maps e'.maps (ofChunk c)
  regions : ∀ key r, e.maps.memSlab.get key = some r → Avoids (ofRegion r) (ofChunk c)
  chunks : ∀ d ∈ e.kernel.heap.chunks, Avoids (ofChunk d) (ofChunk c)
  low : (KernelLayout.forOs os).base call.region ≤ c.addr
  high : c.addr + c.size ≤
    (KernelLayout.forOs os).base call.region + (KernelLayout.forOs os).windowSize call.region

/-- What is asked of a call: it returns a new range, or null and nothing has changed. -/
def AllocMeets (os : KernelOs) (e : KernelEmu) (op : AllocCall × Bool) : Prop :=
  ∃ e' ptr, e.kernelAlloc op.1 op.2 = some (e', ptr) ∧
    (ptr ≠ 0 → ∃ c, Granted os e e' op.1 ptr c) ∧
    (ptr = 0 → e'.kernel.heap.chunks = e.kernel.heap.chunks ∧
      e'.kernel.heap.live = e.kernel.heap.live ∧ SameMaps e.maps e'.maps)

/-- The size and the address that a call would give to its chunk, if nothing overflows. -/
structure KernelHeap.Reserves (h : KernelHeap) (call : AllocCall) (size addr : Nat) : Prop where
  rounded : chunkSize call = some size
  aligned : nextMultipleOf (h.cursor call.region) 16 = some addr
  fits : addr + size + heapRedzone < 2 ^ 64

/-- Nothing overflows, and the window is exhausted or the chunk keeps clear of the Linux stack. -/
def AllocAvoids (os : KernelOs) (e : KernelEmu) (op : AllocCall × Bool) : Prop :=
  ∃ size addr, Reserves e.kernel.heap op.1 size addr ∧
    (e.kernel.heap.windowEnd op.1.region < addr + size + heapRedzone ∨
      (os = .linux → op.1.region.onSlab = false →
        addr + size ≤ (FixedLayout.forOs os).stackBase ∨
          (FixedLayout.forOs os).stackBase + (FixedLayout.forOs os).stackSize ≤ addr))

/-! ### The ledger's part -/

namespace KernelHeap

variable {os : KernelOs} {h h' : KernelHeap} {call : AllocCall} {c : KernelChunk} {size addr : Nat}

theorem recordAlloc_of_not_reserves (hnot : ∀ size addr, ¬Reserves h call size addr) :
    h.recordAlloc call = none := by
  by_contra hsome
  obtain ⟨out, hout⟩ := ne_none_iff_exists'.mp hsome
  simp only [recordAlloc, bind_eq_bind, bind_eq_some_iff] at hout
  obtain ⟨size, hsize, addr, haddr, sum, hsum, next, hnext, -⟩ := hout
  have hfits : next < 2 ^ 64 := by
    rw [addU64] at hnext
    split at hnext
    · exact Option.some.inj hnext ▸ ‹_›
    · cases hnext
  refine hnot size addr ⟨hsize, haddr, ?_⟩
  rwa [addU64_eq_some hsum, addU64_eq_some hnext]

theorem Reserves.recordAlloc_exhausted (hres : Reserves h call size addr)
    (hfull : h.windowEnd call.region < addr + size + heapRedzone) :
    h.recordAlloc call = some (h, none) := by
  have hfits := hres.fits
  rw [KernelHeap.recordAlloc, hres.rounded, hres.aligned, bind_eq_bind, bind_some,
    bind_some, addU64, if_pos (by omega), bind_some, addU64, if_pos hfits,
    bind_some, if_pos hfull]
  rfl

theorem Sound.serial_lt (hs : Sound os h) : h.serial + 1 < 2 ^ 64 := by
  have hserial := hs.serial
  have hslab := (hs.cursor .slab).2
  have hvmalloc := (hs.cursor .vmalloc).2
  rw [hs.window] at hslab hvmalloc
  have hsize : (KernelLayout.forOs os).windowSize .slab = 0x10000000 := by cases os <;> rfl
  have hsize' : (KernelLayout.forOs os).windowSize .vmalloc = 0x10000000 := by cases os <;> rfl
  rw [heapRedzone] at hserial
  omega

theorem Reserves.recordAlloc (hres : Reserves h call size addr) (hserial : h.serial + 1 < 2 ^ 64)
    (hroom : ¬h.windowEnd call.region < addr + size + heapRedzone) :
    ∃ h' c, h.recordAlloc call = some (h', some c) ∧ c.addr = addr ∧ c.size = size := by
  have hfits := hres.fits
  rw [KernelHeap.recordAlloc, hres.rounded, hres.aligned, bind_eq_bind, bind_some,
    bind_some, addU64, if_pos (by omega), bind_some, addU64, if_pos hfits,
    bind_some, if_neg hroom, addU64, if_pos hserial]
  exact ⟨_, _, rfl, rfl, rfl⟩

theorem Ledger.disjoint_of_records (hh : Ledger h) (hrec : Records h h' call c)
    {d : KernelChunk} (hd : d ∈ h.chunks) : Avoids (ofChunk d) (ofChunk c) := by
  have hh' := hh.records hrec
  have hmem : d ∈ h'.chunks := hrec.chunks ▸ mem_append_left _ hd
  have hnew : c ∈ h'.chunks := hrec.chunks ▸ mem_append_right _ (mem_singleton.mpr rfl)
  cases hdr : d.region.onSlab <;> cases hcr : c.region.onSlab
  case false.true => exact .inr (hh'.slab_lt hnew hmem hcr hdr)
  case true.false => exact .inl (hh'.slab_lt hmem hnew hdr hcr)
  all_goals
    left
    calc
      d.addr + d.size ≤ h.cursor d.region := hh.below d hd
      _ = h.cursor call.region := cursor_congr (hrec.region ▸ hdr.trans hcr.symm)
      _ ≤ c.addr := hrec.cursor_le

theorem Sound.stop_le (hs : Sound os h) (hrec : Records h h' call c) : c.addr + c.size ≤
    (KernelLayout.forOs os).base call.region + (KernelLayout.forOs os).windowSize call.region :=
  calc
    c.addr + c.size ≤ h'.cursor call.region := hrec.fits
    _ ≤ h.windowEnd call.region := hrec.inside
    _ = _ := hs.window call.region

end KernelHeap

/-! ### Names and windows -/

theorem serial_of_mapName {a b : String} {n k : Nat}
    (hname : a ++ "#" ++ toString n = b ++ "#" ++ toString k) : n = k := by
  have hdigits : ∀ (s : String) (n : Nat),
      (s ++ "#" ++ toString n).toList.reverse.takeWhile (· ≠ '#') =
        (Nat.toDigits 10 n).reverse := by
    intro s n
    have hnone : ∀ x ∈ (Nat.toDigits 10 n).reverse, decide (x ≠ '#') = true := by
      intro x hx
      have hdigit := Nat.isDigit_of_mem_toDigits (by decide) (by decide) (mem_reverse.mp hx)
      rw [decide_eq_true_eq]
      rintro rfl
      cases hdigit
    have hlist : (toString n).toList = Nat.toDigits 10 n := by
      rw [Nat.toString_eq_ofList_toDigits, String.toList_ofList]
    rw [String.toList_append, String.toList_append, hlist, reverse_append,
      reverse_append, takeWhile_append_of_pos hnone]
    simp
  have hlists := congrArg (fun s : String => s.toList.reverse.takeWhile (· ≠ '#')) hname
  rw [hdigits, hdigits, reverse_inj] at hlists
  rw [← Nat.ofDigitChars_ten_toDigits (n := n), hlists, Nat.ofDigitChars_ten_toDigits]

theorem hash_mem_mapName (cache : String) (n : Nat) :
    '#' ∈ (cache ++ "#" ++ toString n).toList := by
  simp

theorem hash_notMem_fixedMaps (os : KernelOs) :
    ∀ t ∈ (fixedMaps os).map ofFixed, '#' ∉ t.name.toList := by
  cases os <;> decide

def stackRange (os : KernelOs) : Named :=
  ⟨"kernel.stack", (FixedLayout.forOs os).stackBase, (FixedLayout.forOs os).stackSize⟩

theorem stackRange_mem (os : KernelOs) : stackRange os ∈ (fixedMaps os).map ofFixed := by
  cases os <;> decide

theorem fixedMaps_window (os : KernelOs) (region : Region) :
    ∀ t ∈ (fixedMaps os).map ofFixed, os = .linux ∧ region.onSlab = false ∧ t = stackRange os ∨
      t.base + t.size ≤ (KernelLayout.forOs os).base region ∨
        (KernelLayout.forOs os).base region + (KernelLayout.forOs os).windowSize region ≤
          t.base := by
  cases os <;> cases region <;> decide

/-! ### The step -/

structure AllocInv (os : KernelOs) (e : KernelEmu) : Prop where
  sound : Sound os e.kernel.heap
  noFault : e.kernel.failAllocIndex = none
  holds : Holds e.maps ((fixedMaps os).map ofFixed ++ e.kernel.heap.chunks.map ofChunk)
  names : ∀ c ∈ e.kernel.heap.chunks, ∃ cache n, n ≤ e.kernel.heap.serial ∧
    c.mapName = cache ++ "#" ++ toString n

section Step

variable {os : KernelOs} {e e' : KernelEmu} {call : AllocCall}

theorem kernelAlloc_eq (call : AllocCall) (zeroed : Bool)
    (hfault : e.kernel.failAllocIndex = none) :
    e.kernelAlloc call zeroed = (e.kernel.heap.recordAlloc call).bind fun r => match r with
      | (heap, none) =>
        some ({ e with kernel := { e.kernel with
          heap, allocCount := e.kernel.allocCount + 1 } }, 0)
      | (heap, some c) => (mapChunk e.maps c zeroed).bind fun r =>
        some ({ maps := r.1, kernel := { e.kernel with
          heap, allocCount := e.kernel.allocCount + 1 } }, r.2) := by
  have hnot : ¬e.kernel.failAllocIndex = some e.kernel.allocCount := by
    rw [hfault]
    exact (nomatch ·)
  rw [KernelEmu.kernelAlloc, if_neg hnot]
  rfl

variable {h' : KernelHeap} {c : KernelChunk} (hinv : AllocInv os e)
  (hrec : e.kernel.heap.recordAlloc call = some (h', some c))
include hinv hrec

omit hinv in
theorem fresh_of_recordAlloc : Fresh e.kernel.heap h' call c := by
  obtain ⟨hnone, -⟩ | ⟨c', hc', -, hfresh⟩ := recordAlloc_cases hrec
  · cases hnone
  · cases hc'
    exact hfresh

theorem AllocInv.name_ne {t : Named}
    (ht : t ∈ (fixedMaps os).map ofFixed ++ e.kernel.heap.chunks.map ofChunk) :
    t.name ≠ (ofChunk c).name := by
  have hfresh := fresh_of_recordAlloc hrec
  rw [show (ofChunk c).name = c.mapName from rfl, hfresh.mapName]
  rcases mem_append.mp ht with hfixed | hchunk
  · intro hname
    exact hash_notMem_fixedMaps os t hfixed (hname ▸ hash_mem_mapName _ _)
  obtain ⟨d, hd, rfl⟩ := mem_map.mp hchunk
  obtain ⟨cache, n, hn, hname⟩ := hinv.names d hd
  intro hsame
  have hserial := serial_of_mapName (hname.symm.trans hsame)
  have hnext := hfresh.serial
  omega

theorem AllocInv.apart (hoff : os = .linux → call.region.onSlab = false →
      Avoids (stackRange os) (ofChunk c)) :
    ∀ t ∈ (fixedMaps os).map ofFixed ++ e.kernel.heap.chunks.map ofChunk, Apart t (ofChunk c) := by
  have hrecords := records_of_recordAlloc hrec
  intro t ht
  refine ⟨hinv.name_ne hrec ht, ?_⟩
  rcases mem_append.mp ht with hfixed | hchunk
  · have hlow : (KernelLayout.forOs os).base call.region ≤ c.addr :=
      Nat.le_trans (hinv.sound.cursor call.region).1 hrecords.cursor_le
    have hhigh := hinv.sound.stop_le hrecords
    rcases fixedMaps_window os call.region t hfixed with
      ⟨hos, hslab, rfl⟩ | hbelow | habove
    · exact hoff hos hslab
    · exact .inl (Nat.le_trans hbelow hlow)
    · exact .inr (Nat.le_trans hhigh habove)
  · obtain ⟨d, hd, rfl⟩ := mem_map.mp hchunk
    exact hinv.sound.ledger.disjoint_of_records hrecords hd

theorem AllocInv.granted (zeroed : Bool) (hoff : os = .linux → call.region.onSlab = false →
      Avoids (stackRange os) (ofChunk c)) :
    ∃ e', e.kernelAlloc call zeroed = some (e', c.addr) ∧ AllocInv os e' ∧
      e'.kernel.heap = h' ∧ Granted os e e' call c.addr c := by
  have hrecords := records_of_recordAlloc hrec
  have hfresh := fresh_of_recordAlloc hrec
  have hapart := hinv.apart hrec hoff
  have hsound := hinv.sound.records hrecords hfresh
  have hmem : c ∈ h'.chunks := hrecords.chunks ▸ mem_append_right _ (mem_singleton.mpr rfl)
  have hproper : ∀ t ∈ (fixedMaps os).map ofFixed ++ e.kernel.heap.chunks.map ofChunk,
      0 < t.size := by
    intro t ht
    rcases mem_append.mp ht with hfixed | hchunk
    · exact (fixedMaps_proper os t hfixed).1
    · obtain ⟨d, hd, rfl⟩ := mem_map.mp hchunk
      exact hinv.sound.ledger.pos d hd
  have hc : Proper (ofChunk c) := ⟨hrecords.pos, Nat.le_sub_one_of_lt (hsound.stop_lt hmem)⟩
  obtain ⟨m', hmap, hadds⟩ := hinv.holds.mapChunk hproper hc hapart zeroed
  refine ⟨⟨m', { e.kernel with heap := h', allocCount := e.kernel.allocCount + 1 }⟩, ?_, ?_, rfl,
    ?_⟩
  · rw [kernelAlloc_eq call zeroed hinv.noFault, hrec, bind_some]
    dsimp only
    rw [hmap]
    rfl
  · refine ⟨hsound, hinv.noFault, ?_, ?_⟩
    · have hholds := hinv.holds.add hadds
      rw [append_assoc] at hholds
      rw [hrecords.chunks, map_append]
      exact hholds
    · rw [hrecords.chunks, forall_mem_append, forall_mem_singleton]
      refine ⟨fun d hd => ?_, call.cache, h'.serial, Nat.le_refl _, hfresh.mapName⟩
      obtain ⟨cache, n, hn, hname⟩ := hinv.names d hd
      exact ⟨cache, n, hfresh.serial ▸ Nat.le_succ_of_le hn, hname⟩
  · refine ⟨rfl, le_chunkSize hfresh.size, hrecords.chunks, hadds, fun key r hget => ?_,
      fun d hd => hinv.sound.ledger.disjoint_of_records hrecords hd,
      Nat.le_trans (hinv.sound.cursor call.region).1 hrecords.cursor_le,
      hinv.sound.stop_le hrecords⟩
    exact (hapart _ ((hinv.holds.mem _).mpr ⟨key, r, hget, rfl⟩)).2

/-- On the stack, the call has either recorded a chunk without a map or mapped it over the stack. -/
theorem AllocInv.not_meets (zeroed : Bool) (hmeet : ¬Avoids (stackRange os) (ofChunk c)) :
    ¬AllocMeets os e (call, zeroed) := by
  have hrecords := records_of_recordAlloc hrec
  rintro ⟨e', ptr, halloc, hgranted, hnull⟩
  have hchunks : e'.kernel.heap.chunks = e.kernel.heap.chunks ++ [c] := by
    rw [kernelAlloc_eq call zeroed hinv.noFault, hrec, bind_some] at halloc
    obtain ⟨⟨m', ptr'⟩, -, hout⟩ := bind_eq_some_iff.mp halloc
    cases hout
    exact hrecords.chunks
  by_cases hptr : ptr = 0
  · have hsame := (hnull hptr).1
    rw [hchunks] at hsame
    simp at hsame
  obtain ⟨d, hd⟩ := hgranted hptr
  have hsame := hd.recorded
  rw [hchunks, append_cancel_left_eq, List.cons.injEq] at hsame
  obtain ⟨key, r, hget, hr⟩ := (hinv.holds.mem _).mp (mem_append_left _ (stackRange_mem os))
  exact hmeet (hsame.1 ▸ hr ▸ hd.regions key r hget)

theorem AllocInv.refused (zeroed : Bool) (hlow : (stackRange os).base ≤ c.addr)
    (hhigh : c.addr < (stackRange os).base + (stackRange os).size) :
    ∃ e', e.kernelAlloc call zeroed = some (e', 0) ∧ e'.kernel.heap = h' ∧
      SameMaps e.maps e'.maps := by
  have hmem := mem_append_left (e.kernel.heap.chunks.map ofChunk) (stackRange_mem os)
  obtain ⟨tlb, msg, hcreate⟩ :=
    hinv.holds.createMap_taken (s := ofChunk c) hmem hlow hhigh readWrite
  have hmap : mapChunk e.maps c zeroed = some ({ e.maps with tlb := tlb }, 0) := by
    rw [mapChunk, show e.maps.createMap c.mapName c.addr c.size readWrite = _ from hcreate]
  refine ⟨⟨{ e.maps with tlb := tlb }, { e.kernel with
    heap := h', allocCount := e.kernel.allocCount + 1 }⟩, ?_, rfl, tlb, rfl⟩
  rw [kernelAlloc_eq call zeroed hinv.noFault, hrec, bind_some]
  dsimp only
  rw [hmap]
  rfl

end Step

theorem KernelHeap.Reserves.unique {h : KernelHeap} {call : AllocCall} {size addr size' addr' : Nat}
    (hres : Reserves h call size addr) (hres' : Reserves h call size' addr') :
    size = size' ∧ addr = addr' :=
  ⟨Option.some.inj (hres.rounded.symm.trans hres'.rounded),
    Option.some.inj (hres.aligned.symm.trans hres'.aligned)⟩

theorem base_pos (os : KernelOs) (region : Region) : 0 < (KernelLayout.forOs os).base region := by
  cases os <;> cases region <;> decide

section Runs

variable {os : KernelOs} {e : KernelEmu} (hinv : AllocInv os e) (call : AllocCall) (zeroed : Bool)
include hinv

theorem AllocInv.meets_exhausted {size addr : Nat} (hres : Reserves e.kernel.heap call size addr)
    (hfull : e.kernel.heap.windowEnd call.region < addr + size + heapRedzone) :
    ∃ e', e.kernelAlloc call zeroed = some (e', 0) ∧ AllocInv os e' ∧
      AllocMeets os e (call, zeroed) := by
  have halloc := kernelAlloc_eq call zeroed hinv.noFault
  rw [hres.recordAlloc_exhausted hfull, bind_some] at halloc
  refine ⟨_, halloc, ⟨hinv.sound, hinv.noFault, hinv.holds, hinv.names⟩, _, _, halloc,
    fun hptr => (hptr rfl).elim, fun _ => ⟨rfl, rfl, e.maps.tlb, rfl⟩⟩

theorem AllocInv.meets_granted {h' : KernelHeap} {c : KernelChunk}
    (hrec : e.kernel.heap.recordAlloc call = some (h', some c))
    (hoff : os = .linux → call.region.onSlab = false → Avoids (stackRange os) (ofChunk c)) :
    ∃ e', e.kernelAlloc call zeroed = some (e', c.addr) ∧ AllocInv os e' ∧
      AllocMeets os e (call, zeroed) := by
  obtain ⟨e', halloc, hinv', -, hgranted⟩ := hinv.granted hrec zeroed hoff
  have hpos := base_pos os call.region
  have hlow := hgranted.low
  exact ⟨e', halloc, hinv', e', c.addr, halloc, fun _ => ⟨c, hgranted⟩, fun hzero => by omega⟩

theorem AllocInv.step_cases : ¬AllocAvoids os e (call, zeroed) ∧ ¬AllocMeets os e (call, zeroed) ∨
      AllocAvoids os e (call, zeroed) ∧ ∃ e' ptr, e.kernelAlloc call zeroed = some (e', ptr) ∧
        AllocInv os e' ∧ AllocMeets os e (call, zeroed) := by
  by_cases hplace : ∃ size addr, Reserves e.kernel.heap call size addr
  · obtain ⟨size, addr, hres⟩ := hplace
    by_cases hfull : e.kernel.heap.windowEnd call.region < addr + size + heapRedzone
    · obtain ⟨e', halloc, hinv', hmeets⟩ := hinv.meets_exhausted call zeroed hres hfull
      exact .inr ⟨⟨size, addr, hres, .inl hfull⟩, e', 0, halloc, hinv', hmeets⟩
    obtain ⟨h', c, hrec, rfl, rfl⟩ := hres.recordAlloc hinv.sound.serial_lt hfull
    by_cases hoff : os = .linux → call.region.onSlab = false → Avoids (stackRange os) (ofChunk c)
    · obtain ⟨e', halloc, hinv', hmeets⟩ := hinv.meets_granted call zeroed hrec hoff
      exact .inr ⟨⟨c.size, c.addr, hres, .inr fun hos hslab => (hoff hos hslab).symm⟩, e', c.addr,
        halloc, hinv', hmeets⟩
    simp only [Classical.not_imp] at hoff
    obtain ⟨hos, hslab, hmeet⟩ := hoff
    refine .inl ⟨?_, hinv.not_meets hrec zeroed hmeet⟩
    rintro ⟨size, addr, hres', havoid⟩
    obtain ⟨rfl, rfl⟩ := hres.unique hres'
    rcases havoid with hfull' | havoid
    · exact hfull hfull'
    · exact hmeet (havoid hos hslab).symm
  · have hnone := recordAlloc_of_not_reserves fun size addr hres => hplace ⟨size, addr, hres⟩
    refine .inl ⟨fun ⟨size, addr, hres, _⟩ => hplace ⟨size, addr, hres⟩, ?_⟩
    rintro ⟨e', ptr, halloc, -⟩
    rw [kernelAlloc_eq call zeroed hinv.noFault, hnone] at halloc
    cases halloc

end Runs

theorem allocInv_init {os : KernelOs} {m : Maps} (hm : Holds m ((fixedMaps os).map ofFixed)) :
    AllocInv os ⟨m, KernelEnv.new os⟩ := by
  refine ⟨sound_forOs os, rfl, ?_, fun c hc => (not_mem_nil hc).elim⟩
  exact (append_nil _).symm ▸ hm

def vmalloc (size : UInt64) : AllocCall := ⟨.vmalloc, size, "vmalloc", "vmalloc", 0, 0⟩

theorem linux_stack_next : ∃ e₀ e₁ : KernelEmu, kernelInit Maps.default .linux = some e₀ ∧
    e₀.kernelAlloc (vmalloc 0xff000) false = some (e₁, 0xffffc90000000000) ∧
      AllocInv .linux e₁ ∧ e₁.kernel.heap.cursor .vmalloc = (stackRange .linux).base := by
  obtain ⟨m, hinit, hm⟩ := kernelInit_default .linux
  have hinv := allocInv_init hm
  have hres : Reserves (forOs .linux) (vmalloc 0xff000) 0xff000 0xffffc90000000000 :=
    ⟨by decide, by decide, by decide⟩
  obtain ⟨h', c, hrec, haddr, hsize⟩ := hres.recordAlloc (by decide) (by decide)
  obtain ⟨e₁, halloc, hinv₁, hheap, -⟩ := hinv.granted hrec false fun _ _ => by
    simp only [Named.Avoids, ofChunk, haddr, hsize]
    decide
  have hnext := (fresh_of_recordAlloc (e := ⟨m, KernelEnv.new .linux⟩) hrec).next
  refine ⟨_, e₁, hinit, haddr ▸ halloc, hinv₁, ?_⟩
  rw [hheap, show h'.cursor .vmalloc = _ from hnext, haddr, hsize]
  rfl

/-- From a fresh environment, every call of a sequence returns a new range of its window, or null
with nothing changed, if and only if none of them overflows or meets the Linux stack. -/
theorem alloc_run_iff (os : KernelOs) : ∃ e₀, kernelInit Maps.default os = some e₀ ∧
    ∀ ops, Along allocStep (AllocMeets os) e₀ ops ↔ Along allocStep (AllocAvoids os) e₀ ops := by
  obtain ⟨m, hinit, hm⟩ := kernelInit_default os
  refine ⟨_, hinit, fun ops => ?_⟩
  refine along_iff (AllocInv os) (fun e op hinv => ?_) (fun e op e' hinv havoids hstep => ?_)
    (allocInv_init hm)
  · obtain ⟨havoids, hmeets⟩ | ⟨havoids, -, -, -, -, hmeets⟩ := hinv.step_cases op.1 op.2
    · exact iff_of_false hmeets havoids
    · exact iff_of_true hmeets havoids
  obtain ⟨⟨e₁, ptr⟩, halloc, rfl⟩ := map_eq_some_iff.mp hstep
  obtain ⟨hnot, -⟩ | ⟨-, e₂, ptr₂, halloc₂, hinv₂, -⟩ := hinv.step_cases op.1 op.2
  · exact (hnot havoids).elim
  · cases halloc.symm.trans halloc₂
    exact hinv₂

/-- Behind a chunk that ends a redzone before the Linux stack, a page is refused, and its chunk
stays in the ledger. -/
theorem alloc_onto_stack : ∃ e₀ e₁ e₂ : KernelEmu, kernelInit Maps.default .linux = some e₀ ∧
    e₀.kernelAlloc (vmalloc 0xff000) false = some (e₁, 0xffffc90000000000) ∧
    e₁.kernelAlloc (vmalloc 1) false = some (e₂, 0) ∧
    e₂.kernel.heap.chunks.length = e₁.kernel.heap.chunks.length + 1 ∧
    ¬AllocMeets .linux e₁ (vmalloc 1, false) := by
  obtain ⟨e₀, e₁, hinit, halloc, hinv, hcursor⟩ := linux_stack_next
  have hres : Reserves e₁.kernel.heap (vmalloc 1) 0x1000 0xffffc90000100000 := by
    refine ⟨by decide, ?_, by decide⟩
    rw [show e₁.kernel.heap.cursor (vmalloc 1).region = _ from hcursor]
    decide
  obtain ⟨h', c, hrec, haddr, hsize⟩ := hres.recordAlloc hinv.sound.serial_lt (by
    rw [hinv.sound.window]
    decide)
  obtain ⟨e₂, halloc₂, hheap, -⟩ := hinv.refused hrec false (by rw [haddr]; decide)
    (by rw [haddr]; decide)
  have hchunks := (records_of_recordAlloc hrec).chunks
  refine ⟨e₀, e₁, e₂, hinit, halloc, halloc₂, ?_, hinv.not_meets hrec false ?_⟩
  · rw [hheap, hchunks, length_append]
    rfl
  · simp only [Named.Avoids, ofChunk, haddr, hsize]
    decide

end Mwemu.Kernel
