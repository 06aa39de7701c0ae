import Mwemu.Maps.Bytes
import Mwemu.Maps.Runs
import Mwemu.O1Heap.Runs

/-!
# Reallocation of guest heap blocks

`heap_reallocate` has the allocator resize a block and then copies the bytes that the allocator
asks for. The new block never overlaps another live one, and the copy stays inside it, so the bytes
of the block move along and those of all others stay.
-/

namespace Mwemu.Api

open Mwemu.Lib List

/-- The arenas of the emulator, its memory, and the arena and maximum size of each heap handle. -/
structure HeapState where
  arenas : List O1Heap
  maps : Maps
  contexts : Nat → Option (Nat × Nat)

def allocContext (s : HeapState) (handle : Nat) : Nat × Nat :=
  (s.contexts handle).getD (0, 0)

def heapReallocate (s : HeapState) (handle addr newSize : Nat) : Option (Option Nat × HeapState) :=
  if newSize = 0 ∨ 2 ^ 64 ≤ newSize then some (none, s)
  else
    let (arenaIdx, maximumSize) := allocContext s handle
    if maximumSize ≠ 0 ∧ maximumSize < newSize then some (none, s)
    else
      match s.arenas[arenaIdx]? with
      | none => some (none, s)
      | some heap =>
        if !heap.checkFragmentExists addr then some (none, s)
        else
          (heap.reallocate addr newSize).bind fun (result, heap) =>
            let s := { s with arenas := s.arenas.set arenaIdx heap }
            match result with
            | none => some (none, s)
            | some result =>
              if 0 < result.copySize then
                (s.maps.memcpy result.newAddr addr result.copySize).map fun (copied, maps) =>
                  (if copied then some result.newAddr else none, { s with maps := maps })
              else some (some result.newAddr, s)

/-! ### What the allocator makes of the block -/

theorem le_fragmentSize {amount : Nat} (hsize : O1Heap.fragmentSize amount ≠ 0) :
    amount ≤ O1Heap.fragmentSize amount := by
  have hround : O1Heap.roundUpToPowerOf2 amount ≠ 0 → amount ≤ O1Heap.roundUpToPowerOf2 amount := by
    rw [O1Heap.roundUpToPowerOf2]
    split_ifs with hone hlarge hpow
    · exact fun _ => hone
    · exact fun h => absurd rfl h
    · exact fun _ => Nat.le_refl _
    · exact fun _ => Nat.le_of_lt Nat.lt_log2_self
  rw [O1Heap.fragmentSize] at hsize ⊢
  split_ifs at hsize ⊢ with hzero
  · exact absurd rfl hsize
  · exact Nat.le_trans (hround hzero) (Nat.le_max_left _ _)

section Resize

variable {h : O1Heap} {ids : List Nat} {address amount id : Nat}

theorem resized_block (hr : O1Heap.Rep h ids) (hfit : h.base + h.diagnostics.capacity ≤ 2 ^ 64)
    (ha : O1Heap.Accepts h address amount id) {r : O1Heap.ReallocResult} {bs : List O1Heap.Block}
    (hresize : O1Heap.ResizeResult h ids id (O1Heap.fragmentSize amount) (some r) bs) :
    ∃ o l, r.newAddr = h.base + o ∧ ⟨o, l, true⟩ ∈ bs ∧ amount ≤ l ∧
      (r.copySize = 0 ∧ r.newAddr = address ∨ r.copySize = (h.nodes id).size ∧ r.copySize ≤ l) ∧
      ∀ d ∈ h.row ids, d.used = true → d.offset ≠ (h.nodes id).offset → d ∈ bs ∧ d.offset ≠ o := by
  obtain ⟨hid, -, -, haddress⟩ := ha.address_eq hr
  have hblock : h.blockOf id ∈ h.row ids := mem_map_of_mem hid
  have hamount := le_fragmentSize ha.size_ne
  generalize hres : some r = res at hresize
  cases hresize with
  | failed => cases hres
  | @inPlace c total _ _ hresized htotal haddr =>
    cases hres
    obtain ⟨l, rest, r', hsplit, -, hfree, -, hle, rfl⟩ := hresized
    have hc : c ∈ h.row ids := by simp [hsplit]
    obtain ⟨size, hmem, hsize⟩ : ∃ size, (⟨c.offset, size, true⟩ : O1Heap.Block) ∈
        O1Heap.resizedBlocks c.offset (O1Heap.fragmentSize amount) total ∧
        O1Heap.fragmentSize amount ≤ size := by
      rw [O1Heap.resizedBlocks]
      split_ifs
      · exact ⟨_, mem_cons_self, Nat.le_refl _⟩
      · exact ⟨_, mem_cons_self, hle⟩
    refine ⟨c.offset, size, ?_, by simp [hmem], Nat.le_trans hamount hsize, ?_, ?_⟩
    · rcases haddr with ⟨-, rfl⟩ | ⟨-, rfl⟩
      · rfl
      · exact hr.address_mod hfit hc
    · rcases haddr with ⟨rfl, rfl⟩ | ⟨hgrow, rfl⟩
      · exact .inl ⟨rfl, haddress.symm⟩
      · exact .inr ⟨rfl, Nat.le_trans (Nat.le_of_lt hgrow) hsize⟩
    -- of the blocks that are resized only the one of the fragment is used
    intro d hd hused hoffset
    have hne : d ≠ h.blockOf id := fun heq => hoffset (by rw [heq]; rfl)
    refine ⟨?_, fun heq => ?_⟩
    swap
    · obtain rfl := hr.layout.eq_of_offset hd hc heq
      rw [hfree d mem_cons_self hne] at hused
      cases hused
    rw [hsplit] at hd
    rcases mem_append.mp hd with hd | hd
    · rcases mem_append.mp hd with hd | hd
      · simp [hd]
      · rw [hfree d hd hne] at hused
        cases hused
    · simp [hd]
  | @moved l r' c hsplit hfree hle hgrow =>
    cases hres
    have hc : c ∈ h.row ids := by simp [hsplit]
    have hne : c.offset ≠ (h.nodes id).offset := hr.layout.offset_ne hc hblock hfree ha.used
    have hkeep : ∀ (bs : List O1Heap.Block) (d : O1Heap.Block), d ∈ bs → d.used = true →
        d.offset ≠ (h.nodes id).offset → d ∈ O1Heap.freeRow bs (h.nodes id).offset := by
      intro bs d hd hused hoffset
      rw [O1Heap.freeRow]
      split_ifs
      · exact (O1Heap.mem_release_used hused).mpr ⟨hd, hoffset⟩
      · exact hd
    refine ⟨c.offset, O1Heap.fragmentSize amount, ?_, hkeep _ _ ?_ rfl hne, hamount,
      .inr ⟨rfl, Nat.le_of_lt hgrow⟩,
      fun d hd hused hoffset => ⟨hkeep _ d ?_ hused hoffset, fun heq => ?_⟩⟩
    · rw [← hr.address_mod hfit hc, Nat.add_comm]
    · have hmem : (⟨c.offset, O1Heap.fragmentSize amount, true⟩ : O1Heap.Block) ∈
          O1Heap.takenBlocks c (O1Heap.fragmentSize amount) := by
        rw [O1Heap.takenBlocks]
        split_ifs <;> exact mem_cons_self
      simp [hmem]
    · rw [hsplit] at hd
      have hdc : d ≠ c := by
        rintro rfl
        rw [hfree] at hused
        cases hused
      simp only [mem_append, mem_cons, hdc, false_or] at hd ⊢
      tauto
    · exact hr.layout.offset_ne hc hd hfree hused heq.symm

end Resize

/-! ### The call -/

/-- What a call for the block of `n` bytes at `a` makes of the allocations and their bytes. -/
structure Reallocates (h h' : O1Heap) (m m' : Maps) (a n request : Nat) (res : Option Nat) : Prop where
  moved : ∀ a', res = some a' → m'.bytesAt a' (min n request) = m.bytesAt a (min n request) ∧
    ∃ l, h'.allocationSize a' = some l ∧ request ≤ l
  others : ∀ a', res = some a' → ∀ b l, b ≠ a → b < h.base + 2 ^ 32 → h.allocationSize b = some l →
    h'.allocationSize b = some l ∧ m'.bytesAt b l = m.bytesAt b l
  failed : res = none → (∀ b, h'.allocationSize b = h.allocationSize b) ∧
    ∀ x, m'.byteAt x = m.byteAt x

theorem Reallocates.of_none {h h' : O1Heap} {m : Maps} {a n request : Nat}
    (hsame : ∀ b, h'.allocationSize b = h.allocationSize b) :
    Reallocates h h' m m a n request none :=
  ⟨nofun, nofun, fun _ => ⟨hsame, fun _ => rfl⟩⟩

section Call

variable {h : O1Heap} {ids : List Nat} {m : Maps} {key a n request : Nat} {r : Mem64}

theorem reallocates_copy (hr : O1Heap.Rep h ids)
    (hcovers : m.Covers key r h.base h.diagnostics.capacity) (hread : r.canRead = true)
    (hwrite : r.canWrite = true) (hlive : h.allocationSize a = some n) {id : Nat}
    (ha : O1Heap.Accepts h a request id) {res : O1Heap.ReallocResult} {h' : O1Heap}
    {bs : List O1Heap.Block} (hbecomes : O1Heap.Becomes h h' bs)
    (hresize : O1Heap.ResizeResult h ids id (O1Heap.fragmentSize request) (some res) bs) :
    ∃ m', (if 0 < res.copySize then m.memcpy res.newAddr a res.copySize else some (true, m)) =
        some (true, m') ∧ Reallocates h h' m m' a n request (some res.newAddr) := by
  have hfit : h.base + h.diagnostics.capacity ≤ 2 ^ 64 := Nat.le_of_lt hcovers.lt_two_pow
  obtain ⟨o, l, haddr, hnew, hrequest, hcopy, hkeep⟩ := resized_block hr hfit ha hresize
  obtain ⟨hid, -, hoffset, haddress⟩ := ha.address_eq hr
  obtain ⟨ids', hr', rfl⟩ := hbecomes.rep
  have hn : n = (h.nodes id).size := by
    obtain ⟨-, hmem⟩ := hr.allocationSize_eq_some.mp hlive
    have heq := hr.layout.eq_of_offset hmem (mem_map_of_mem hid) hoffset
    exact congrArg O1Heap.Block.size heq
  -- the new block is in the arena
  have hlive' : h'.allocationSize res.newAddr = some l := by
    rw [haddr, ← hbecomes.base]
    exact (hr'.live_of_mem hnew rfl).2
  have hstop' : o + l ≤ h.diagnostics.capacity := by
    obtain ⟨front, back, hsplit⟩ := append_of_mem hnew
    have hlayout := hsplit ▸ hr'.layout
    rw [← hbecomes.capacity]
    exact hlayout.stop_le
  have hstop := hr.stop_le hid
  have hother : ∀ b k, b ≠ a → b < h.base + 2 ^ 32 → h.allocationSize b = some k →
      h'.allocationSize b = some k ∧ (res.newAddr + l ≤ b ∨ b + k ≤ res.newAddr) := by
    intro b k hne hlt hb
    obtain ⟨hle, hmem⟩ := hr.allocationSize_eq_some.mp hb
    have hwindow := ha.offset_lt
    have hbase := ha.base_le
    have hne' : h.offsetOf b ≠ (h.nodes id).offset := by
      rw [← hoffset, O1Heap.offsetOf, O1Heap.offsetOf]
      omega
    obtain ⟨hmem', ho⟩ := hkeep _ hmem rfl hne'
    have hb' : h'.allocationSize b = some k := by
      refine hr'.allocationSize_eq_some.mpr ⟨hbecomes.base.symm ▸ hle, ?_⟩
      rw [O1Heap.offsetOf, hbecomes.base]
      exact hmem'
    refine ⟨hb', hr'.live_disjoint hlive' hb' fun heq => ho ?_⟩
    have hsmall := hr.small
    change h.offsetOf b = o
    rw [← heq, haddr, O1Heap.offsetOf_base_add]
    have hmin := hr'.layout.min _ hnew
    dsimp only at hmin
    omega
  by_cases hzero : 0 < res.copySize
  · obtain ⟨hsize, hle⟩ := hcopy.resolve_left fun hno => Nat.lt_irrefl 0 (hno.1 ▸ hzero)
    have hdst : m.Covers key r res.newAddr res.copySize := hcovers.sub (by omega) (by omega)
    have hsrc : m.Covers key r a res.copySize := hcovers.sub (by omega) (by omega)
    obtain ⟨m', hmemcpy, hstores⟩ := hdst.memcpy_stores hsrc hzero hread hwrite
    have hlength := m.length_bytesAt a res.copySize
    refine ⟨m', (if_pos hzero).trans hmemcpy, fun a' heq => ?_, fun a' heq b k hne hlt hb => ?_, by simp⟩
    · cases heq
      refine ⟨?_, l, hlive', hrequest⟩
      have hwhole := hstores.bytesAt_eq
      have hmin : min n request ≤ res.copySize := by omega
      rw [hlength, ← Nat.add_sub_of_le hmin, Maps.bytesAt_add, Maps.bytesAt_add] at hwhole
      exact append_inj_left hwhole (by rw [Maps.length_bytesAt, Maps.length_bytesAt])
    · obtain ⟨hb', hapart⟩ := hother b k hne hlt hb
      refine ⟨hb', Maps.bytesAt_congr fun i hi => ?_⟩
      rw [hstores.bytes, if_neg (by omega)]
  · have hsame : res.newAddr = a := by
      rcases hcopy with ⟨-, hsame⟩ | ⟨hsize, -⟩
      · exact hsame
      · have hmin := hr.min_size hid
        omega
    refine ⟨m, if_neg hzero, fun a' heq => ?_, fun a' heq b k hne hlt hb => ?_, by simp⟩
    · cases heq
      exact ⟨by rw [hsame], l, hlive', hrequest⟩
    · exact ⟨(hother b k hne hlt hb).1, rfl⟩

theorem heapReallocate_spec {s : HeapState} {handle : Nat} (hr : O1Heap.Rep h ids)
    (harena : s.arenas[(allocContext s handle).1]? = some h)
    (hcovers : s.maps.Covers key r h.base h.diagnostics.capacity) (hread : r.canRead = true)
    (hwrite : r.canWrite = true) (hlive : h.allocationSize a = some n)
    (hspares : O1Heap.Spares h (.reallocate a request)) :
    ∃ res s' h', heapReallocate s handle a request = some (res, s') ∧
      s'.arenas[(allocContext s handle).1]? = some h' ∧
      Reallocates h h' s.maps s'.maps a n request res := by
  have hsame : Reallocates h h s.maps s.maps a n request none := .of_none fun _ => rfl
  rw [heapReallocate]
  by_cases hzero : request = 0 ∨ 2 ^ 64 ≤ request
  · exact ⟨none, s, h, if_pos hzero, harena, hsame⟩
  rw [if_neg hzero]
  dsimp only
  by_cases hmax : (allocContext s handle).2 ≠ 0 ∧ (allocContext s handle).2 < request
  · exact ⟨none, s, h, if_pos hmax, harena, hsame⟩
  have hcheck : h.checkFragmentExists a = true := by
    rw [O1Heap.checkFragmentExists_eq, hlive]
    rfl
  have hset : ∀ h', (s.arenas.set (allocContext s handle).1 h')[(allocContext s handle).1]? =
      some h' := fun h' => by
    rw [List.getElem?_set_self (List.getElem?_eq_some_iff.mp harena).1]
  rw [if_neg hmax, harena]
  dsimp only
  rw [hcheck, Bool.not_true, if_neg Bool.false_ne_true]
  obtain ⟨res, h', bs, hcall, hbecomes, hresult⟩ := hr.reallocate hspares
  rw [hcall, Option.bind_some]
  cases hresult with
  | free hno => exact absurd (.inl hno) hzero
  | refused =>
    exact ⟨none, _, h', rfl, hset h', .of_none (hr.allocationSize_of_becomes hbecomes)⟩
  | resized ha hresize =>
    cases res with
    | none =>
      cases hresize
      exact ⟨none, _, h', rfl, hset h', .of_none (hr.allocationSize_of_becomes hbecomes)⟩
    | some res =>
      obtain ⟨m', hcopy, hreallocates⟩ :=
        reallocates_copy hr hcovers hread hwrite hlive ha hbecomes hresize
      refine ⟨some res.newAddr, ⟨s.arenas.set (allocContext s handle).1 h', m', s.contexts⟩, h', ?_,
        hset h', hreallocates⟩
      dsimp only
      split_ifs at hcopy ⊢
      · rw [hcopy]
        rfl
      · cases hcopy
        rfl

end Call

/-- In a run whose calls spare used fragments `heap_reallocate` moves the bytes of the block along,
leaves the other allocations, and leaves all of them when it fails. -/
theorem heapReallocate_along_run {base : UInt64} {size : UInt32} {h₀ : O1Heap}
    (hnew : O1Heap.new base size = some h₀) {ops : List O1Heap.Op}
    (hops : Along O1Heap.step O1Heap.Spares h₀ ops) (k : Nat) :
    ∃ h, run O1Heap.step h₀ (ops.take k) = some h ∧
      ∀ (s : HeapState) (handle key a n request : Nat) (r : Mem64),
        s.arenas[(allocContext s handle).1]? = some h →
        s.maps.Covers key r base.toNat size.toNat → r.canRead = true → r.canWrite = true →
        h.allocationSize a = some n → O1Heap.Spares h (.reallocate a request) →
        ∃ res s' h', heapReallocate s handle a request = some (res, s') ∧
          s'.arenas[(allocContext s handle).1]? = some h' ∧
          Reallocates h h' s.maps s'.maps a n request res := by
  obtain ⟨h, hrun, hbase, hcapacity, ids, hr⟩ := run_invariant (O1Heap.Arena base size)
    (fun s op hs hop => hs.step hop) (O1Heap.arena_new hnew) (hops.take k)
  refine ⟨h, hrun, fun s handle key a n request r harena hcovers hread hwrite hlive hspares => ?_⟩
  rw [← hbase, ← hcapacity] at hcovers
  exact heapReallocate_spec hr harena hcovers hread hwrite hlive hspares

def newArena : O1Heap := (O1Heap.new 0x1000 2560).get (by decide +kernel)

def neighbours : List O1Heap.Op := [.allocate 256, .allocate 256]

/-- A mapped arena whose first block cannot grow in its place. -/
def crowded : HeapState where
  arenas := [(run O1Heap.step newArena neighbours).get (by decide +kernel)]
  maps := (Maps.default.createMap "heap" 0x1000 2560 Maps.readWrite).1
  contexts _ := none

theorem heapReallocate_along_run_crowded : ∃ h s' h', run O1Heap.step newArena neighbours = some h ∧
    crowded.arenas[0]? = some h ∧ heapReallocate crowded 0 0x1000 512 = some (some 0x1200, s') ∧
    s'.arenas[0]? = some h' ∧
    Reallocates h h' crowded.maps s'.maps 0x1000 256 512 (some 0x1200) := by
  have hops : Along O1Heap.step O1Heap.Spares newArena neighbours := by decide +kernel
  have hregion : Along Maps.Op.step (fun m op => op.InRange m ∧ op.Admitted m) Maps.default
      [.createMap "heap" 0x1000 2560 Maps.readWrite] := by
    decide +kernel
  have hwf : crowded.maps.Wf := Maps.wf_of_run hregion rfl
  have hmapped : (crowded.maps.searchMaps 0x1000).any (fun e =>
      e.2.inside (0x1000 + (2560 - 1)) && (e.2.canRead && e.2.canWrite)) = true := by
    decide +kernel
  have hblock : (crowded.arenas[0]?).all (fun h => decide (h.allocationSize 0x1000 = some 256 ∧
      O1Heap.Spares h (.reallocate 0x1000 512))) = true := by
    decide +kernel
  have hmoves : (heapReallocate crowded 0 0x1000 512).map Prod.fst = some (some 0x1200) := by
    decide +kernel
  obtain ⟨h, hrun, hspec⟩ := heapReallocate_along_run (Option.some_get _).symm hops 2
  have harena : crowded.arenas[0]? = some h := (Option.some_get _).trans hrun
  rw [harena] at hblock
  obtain ⟨hlive, hspares⟩ := of_decide_eq_true hblock
  obtain ⟨⟨key, r⟩, hfound, hends⟩ := (Option.any_eq_true _ _).mp hmapped
  rw [Bool.and_eq_true, Bool.and_eq_true] at hends
  obtain ⟨res, s', h', hcall, harena', hdoes⟩ := hspec crowded 0 key 0x1000 256 512 r harena
    (hwf.covers hfound (by decide) hends.1) hends.2.1 hends.2.2 hlive hspares
  rw [hcall] at hmoves
  obtain rfl : res = some 0x1200 := Option.some.inj hmoves
  exact ⟨h, s', h', hrun, harena, hcall, harena', hdoes⟩

/-- An arena of 4096 bytes with a byte of one block set, after another block has taken a used one and
has been released. -/
def overlapped : Option HeapState := do
  let h ← O1Heap.new 0x1000 4096
  let h ← run O1Heap.step h [.allocate 256, .allocate 256, .allocate 2048, .allocate 1024,
    .allocate 256, .free 0x1000, .reallocate 0x1100 2048, .free 0x1000]
  let (_, m) ← (Maps.default.createMap "heap" 0x1000 4096 ⟨true, true, false⟩).1.writeByte 0x1c00 7
  return ⟨[h], m, fun _ => none⟩

/-- The block that is moved is copied over one that is still live. -/
theorem heapReallocate_overwrites :
    (overlapped.bind fun s => (heapReallocate s 0 0x1a00 2048).map fun out =>
      ((s.arenas.head?.bind fun h => h.allocationSize 0x1200), s.maps.byteAt 0x1200, out.1,
        out.2.maps.byteAt 0x1200)) = some (some 2048, some 0, some 0x1000, some 7) := by
  decide +kernel

end Mwemu.Api
