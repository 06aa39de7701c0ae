import Mathlib.Data.Nat.Log
import Mwemu.O1Heap.Runs

/-!
# The search for a free fragment

A request is rounded up to a power of two and searched in the bins from the one of that size on. The
search finds a fragment whenever one is large enough, because in every state of a run the bins hold
just the free fragments of the list, each in the bin of its size, and the mask has the bits of the
bins that are not empty.
-/

namespace Mwemu.O1Heap

open Mwemu.Lib Nat

/-! ### Sizes of requests -/

theorem roundUpToPowerOf2_eq_clog {x : Nat} (hx : x ≤ 2 ^ 63) :
    roundUpToPowerOf2 x = 2 ^ Nat.clog 2 x := by
  rw [roundUpToPowerOf2]
  by_cases hone : x ≤ 1
  · rw [if_pos hone, Nat.clog_of_right_le_one hone, Nat.pow_zero]
  rw [if_neg hone, if_neg (not_lt.mpr hx)]
  have hne : x ≠ 0 := by omega
  split_ifs with hpow
  · calc x = 2 ^ Nat.log2 x := hpow.symm
      _ = 2 ^ Nat.clog 2 (2 ^ Nat.log2 x) := by rw [clog_pow 2 _ (by decide)]
      _ = 2 ^ Nat.clog 2 x := by rw [hpow]
  -- the power below is not enough, so the next one is the least that is
  have hlow : 2 ^ Nat.log2 x < x := lt_of_le_of_ne (log2_self_le hne) hpow
  have hclog : Nat.clog 2 x = Nat.log2 x + 1 := by
    apply le_antisymm
    · exact clog_le_of_le_pow (le_of_lt lt_log2_self)
    · exact (lt_clog_iff_pow_lt (by decide)).mpr hlow
  rw [hclog]

theorem fragmentSize_le_iff {amount size : Nat} (hsize : size < 2 ^ 32) :
    fragmentSize amount ≠ 0 ∧ fragmentSize amount ≤ size ↔
      max 256 (2 ^ Nat.clog 2 amount) ≤ size := by
  by_cases hle : amount ≤ 2 ^ 63
  · have hpos : 2 ^ Nat.clog 2 amount ≠ 0 := Nat.pos_iff_ne_zero.mp (Nat.two_pow_pos _)
    rw [fragmentSize, roundUpToPowerOf2_eq_clog hle, if_neg hpos, fragmentSizeMin, Nat.max_comm]
    refine and_iff_right ?_
    exact Nat.pos_iff_ne_zero.mp (Nat.lt_of_lt_of_le (by decide) (Nat.le_max_left 256 _))
  -- a request of more than half the address space is not represented
  have hzero : fragmentSize amount = 0 := by
    have hround : roundUpToPowerOf2 amount = 0 := by
      rw [roundUpToPowerOf2, if_neg (by omega), if_pos (not_le.mp hle)]
    rw [fragmentSize, if_pos hround]
  have hlarge : amount ≤ 2 ^ Nat.clog 2 amount := le_pow_clog (by decide) amount
  constructor
  · rintro ⟨hne, -⟩
    exact absurd hzero hne
  · intro hmax
    have := le_trans (le_max_right 256 _) hmax
    omega

/-! ### Lists of the heap -/

/-- The fragments in the order of their addresses: linked both ways, from the start of the arena to
its end, or to the last multiple of 256 before it. -/
structure FragmentList (h : O1Heap) (ids : List Nat) : Prop where
  linked : Linked (fun i => (h.nodes i).next) (fun i => (h.nodes i).prev) none ids none
  tiles : ∃ stop, Tiles 0 (h.row ids) stop ∧ stop ≤ h.diagnostics.capacity ∧
    stop / 256 = h.diagnostics.capacity / 256

/-- The nodes that are linked in a bin. -/
structure BinList (h : O1Heap) (i : Nat) (ids : List Nat) : Prop where
  head : h.bins i = ids.head?
  linked : Linked (fun x => (h.nodes x).nextFree) (fun x => (h.nodes x).prevFree) none ids none

theorem Rep.serves_iff {h : O1Heap} {ids : List Nat} (hr : Rep h ids) {n : Nat} (hn : 0 < n) :
    (∃ a h', h.allocate n = some (some a, h')) ↔
      ∃ id ∈ ids, (h.nodes id).used = false ∧ max 256 (2 ^ Nat.clog 2 n) ≤ (h.nodes id).size := by
  rw [hr.allocate_isSome_iff]
  have hlt : ∀ id ∈ ids, (h.nodes id).size < 2 ^ 32 := fun id hid =>
    lt_of_le_of_lt (le_add_left _ _) (hr.stop_lt hid)
  constructor
  · rintro ⟨-, hsize, b, hb, hfree, hle⟩
    obtain ⟨id, hid, rfl⟩ := List.mem_map.mp hb
    exact ⟨id, hid, hfree, (fragmentSize_le_iff (hlt id hid)).mp ⟨hsize, hle⟩⟩
  · rintro ⟨id, hid, hfree, hle⟩
    obtain ⟨hsize, hle⟩ := (fragmentSize_le_iff (hlt id hid)).mpr hle
    exact ⟨Nat.pos_iff_ne_zero.mp hn, hsize, h.blockOf id, List.mem_map_of_mem hid, hfree, hle⟩

/-- In a run whose calls spare used fragments the bins are those of the free fragments, and a request
is served when one of them is large enough. -/
theorem search_complete_along_run {base : UInt64} {size : UInt32} {h₀ : O1Heap}
    (hnew : new base size = some h₀) {ops : List Op} (hops : Along step Spares h₀ ops) (k : Nat) :
    ∃ (h : O1Heap) (ids : List Nat) (lists : Nat → List Nat),
      run step h₀ (ops.take k) = some h ∧ FragmentList h ids ∧ (∀ i, BinList h i (lists i)) ∧
      (∀ n, 0 < n → ((∃ a h', h.allocate n = some (some a, h')) ↔
        ∃ id ∈ ids, (h.nodes id).used = false ∧ max 256 (2 ^ Nat.clog 2 n) ≤ (h.nodes id).size)) ∧
      (∀ i id, id ∈ lists i ↔ id ∈ ids ∧ (h.nodes id).used = false ∧ 256 ≤ (h.nodes id).size ∧
        Nat.log2 ((h.nodes id).size / 256) = i) ∧ (∀ i, (lists i).Nodup) ∧
      ∀ i, h.nonemptyBinMask.testBit i = true ↔ lists i ≠ [] := by
  obtain ⟨h, hrun, -, -, ids, hr⟩ := run_invariant (Arena base size)
    (fun s op hs hop => hs.step hop) (arena_new hnew) (hops.take k)
  obtain ⟨lists, hs⟩ := hr.shape
  refine ⟨h, ids, lists, hrun, ⟨hs.linked, hr.layout.tiles⟩, fun i => ⟨hs.bins.head i, hs.bins.linked i⟩,
    fun n hn => hr.serves_iff hn, fun i id => ?_, hs.bins.nodup, hs.bins.mask⟩
  rw [hs.binned]
  refine and_congr_right fun hid => ?_
  rw [and_iff_right (Set.notMem_empty id), and_iff_right (hr.min_size hid)]
  exact Iff.rfl

/-- Blocks that have been released in another order than they were allocated in. -/
theorem search_complete_released : ∃ h₀, new 0x1000 4096 = some h₀ ∧
      Along step Spares h₀ [.allocate 256, .allocate 300, .allocate 256, .free 0x1200, .free 0x1000] ∧
      ∃ (h : O1Heap) (ids : List Nat) (lists : Nat → List Nat),
        run step h₀ [.allocate 256, .allocate 300, .allocate 256, .free 0x1200, .free 0x1000] = some h ∧
        FragmentList h ids ∧ (∀ i, BinList h i (lists i)) ∧
        (∀ n, 0 < n → ((∃ a h', h.allocate n = some (some a, h')) ↔
          ∃ id ∈ ids, (h.nodes id).used = false ∧ max 256 (2 ^ Nat.clog 2 n) ≤ (h.nodes id).size)) ∧
        (∀ i id, id ∈ lists i ↔ id ∈ ids ∧ (h.nodes id).used = false ∧ 256 ≤ (h.nodes id).size ∧
          Nat.log2 ((h.nodes id).size / 256) = i) ∧ (∀ i, (lists i).Nodup) ∧
        ∀ i, h.nonemptyBinMask.testBit i = true ↔ lists i ≠ [] := by
  have hsome : (new 0x1000 4096).isSome = true := by decide +kernel
  have hops : Along step Spares ((new 0x1000 4096).get hsome)
      [.allocate 256, .allocate 300, .allocate 256, .free 0x1200, .free 0x1000] := by
    decide +kernel +revert
  exact ⟨_, (Option.some_get hsome).symm, hops,
    search_complete_along_run (Option.some_get hsome).symm hops 5⟩

/-- After a used block has been taken and released on its own, the one fragment of the list is free
and larger than the arena, and a request that it could hold is refused. -/
theorem search_refuses_inflated : ((new 0x1000 1792).bind fun h => run step h
        [.allocate 256, .allocate 256, .allocate 512, .free 0x1000, .reallocate 0x1100 1024,
          .free 0x1000, .free 0x1200]).map
      (fun h => (h.row [0], (h.nodes 0).next, h.bins 3, (h.allocate 2048).map Prod.fst)) =
    some ([⟨0, 2304, false⟩], none, some 0, some none) := by
  decide +kernel

end Mwemu.O1Heap
