import Mwemu.O1Heap.Layout
import Mwemu.O1Heap.Shape

/-!
# Heaps that represent a layout

The invariant of the allocator: its fragments have the shape of the heap, with none parked, and their
blocks are a layout of the arena whose used blocks are counted. The sizes that requests are rounded
to are 256 times a power of two, and a bin holds just the fragments that are large enough for the
requests that search it.
-/

namespace Mwemu.O1Heap

open Mwemu.Lib List

/-! ### Sizes of requests -/

theorem roundUpToPowerOf2_eq (x : Nat) :
    roundUpToPowerOf2 x = 0 ∨ ∃ k, roundUpToPowerOf2 x = 2 ^ k := by
  rw [roundUpToPowerOf2]
  split_ifs with hone hbig hpow
  · exact .inr ⟨0, rfl⟩
  · exact .inl rfl
  · exact .inr ⟨Nat.log2 x, hpow.symm⟩
  · exact .inr ⟨Nat.log2 x + 1, rfl⟩

theorem fragmentSize_eq {amount : Nat} (hsize : fragmentSize amount ≠ 0) :
    ∃ k, fragmentSize amount = 256 * 2 ^ k := by
  rw [fragmentSize] at hsize ⊢
  split_ifs at hsize ⊢ with hzero
  · exact absurd rfl hsize
  obtain ⟨k, hk⟩ := (roundUpToPowerOf2_eq amount).resolve_left hzero
  rw [hk, fragmentSizeMin]
  rcases Nat.le_total 8 k with hle | hle
  · refine ⟨k - 8, ?_⟩
    have hpow : 2 ^ k = 256 * 2 ^ (k - 8) := by
      rw [show 256 = 2 ^ 8 from rfl, ← Nat.pow_add, Nat.add_sub_cancel' hle]
    have hmin : 256 ≤ 2 ^ k := Nat.pow_le_pow_right (n := 2) (by decide) hle
    rw [Nat.max_eq_left hmin, hpow]
  · have hmax : 2 ^ k ≤ 256 := Nat.pow_le_pow_right (n := 2) (by decide) hle
    exact ⟨0, Nat.max_eq_right hmax⟩

theorem log2Ceil_two_pow (k : Nat) : log2Ceil (2 ^ k) = k := by
  rw [log2Ceil]
  cases k with
  | zero => rfl
  | succ k =>
    have hpos : 1 ≤ 2 ^ k := Nat.one_le_two_pow
    have hpow : 2 ^ (k + 1) = 2 * 2 ^ k := by rw [Nat.pow_succ, Nat.mul_comm]
    have hlog : log2Floor (2 ^ (k + 1) - 1) = k := by
      rw [log2Floor, Nat.log2_eq_iff (by omega)]
      omega
    rw [if_neg (by omega), hlog]

theorem log2Ceil_le_binIndex_iff {k size : Nat} (hsize : 256 ≤ size) :
    log2Ceil (256 * 2 ^ k / fragmentSizeMin) ≤ binIndex size ↔ 256 * 2 ^ k ≤ size := by
  have hpos : size / 256 ≠ 0 := by omega
  rw [fragmentSizeMin, Nat.mul_div_cancel_left _ (by decide), log2Ceil_two_pow, binIndex, log2Floor,
    fragmentSizeMin, Nat.le_log2 hpos, Nat.le_div_iff_mul_le (by decide), Nat.mul_comm]

/-! ### Rows of blocks -/

def blockOf (h : O1Heap) (id : Nat) : Block :=
  ⟨(h.nodes id).offset, (h.nodes id).size, (h.nodes id).used⟩

def row (h : O1Heap) (ids : List Nat) : List Block :=
  ids.map h.blockOf

theorem row_append (h : O1Heap) (ids ids' : List Nat) :
    h.row (ids ++ ids') = h.row ids ++ h.row ids' :=
  map_append

theorem row_cons (h : O1Heap) (id : Nat) (ids : List Nat) :
    h.row (id :: ids) = h.blockOf id :: h.row ids := rfl

variable {h h' : O1Heap}

theorem row_congr {ids : List Nat} (hblocks : ∀ id ∈ ids, h'.blockOf id = h.blockOf id) :
    h'.row ids = h.row ids :=
  map_congr_left hblocks

section Blocks

variable (h : O1Heap) (id i : Nat)

theorem blockOf_setSize (size : Nat) : (h.setSize id size).blockOf i =
    { h.blockOf i with size := if i = id then size % 2 ^ 32 else (h.blockOf i).size } := by
  rw [blockOf, nodes_setSize]
  rfl

theorem blockOf_setUsed (used : Bool) : (h.setUsed id used).blockOf i =
    { h.blockOf i with used := if i = id then used else (h.blockOf i).used } := by
  rw [blockOf, nodes_setUsed]
  rfl

theorem blockOf_linkNext (after : Option Nat) : (h.linkNext id after).blockOf i = h.blockOf i := by
  rw [blockOf, nodes_linkNext]
  rfl

theorem blockOf_insertAfter (offset size : Nat) (after : Option Nat) (hi : i ≠ h.fresh) :
    (h.insertAfter id offset size after).blockOf i = h.blockOf i := by
  rw [blockOf, nodes_insertAfter _ _ _ _ _ _ hi]
  rfl

theorem blockOf_insertAfter_fresh (offset size : Nat) (after : Option Nat) :
    (h.insertAfter id offset size after).blockOf h.fresh =
      ⟨offset % 2 ^ 32, size % 2 ^ 32, false⟩ := by
  rw [blockOf, nodes_insertAfter_fresh]
  rfl

end Blocks

theorem SameCore.blockOf (hs : SameCore h h') (i : Nat) : h'.blockOf i = h.blockOf i := by
  rw [O1Heap.blockOf, hs.offset, hs.size, hs.used]
  rfl

theorem SameCore.splitOff {id newSize offset leftover : Nat} {after : Option Nat}
    (hs : SameCore ((h.setSize id newSize).insertAfter id offset leftover after) h') :
    (∀ i < h.fresh, h'.blockOf i = (h.setSize id newSize).blockOf i) ∧
      h'.blockOf h.fresh = ⟨offset % 2 ^ 32, leftover % 2 ^ 32, false⟩ := by
  constructor
  · intro i hi
    rw [hs.blockOf]
    exact blockOf_insertAfter _ _ _ _ _ _ (Nat.ne_of_lt hi)
  · rw [hs.blockOf]
    exact blockOf_insertAfter_fresh _ _ _ _ _

def usedTotal (bs : List Block) : Nat :=
  Layout.total (bs.filter Block.used)

theorem usedTotal_append (bs cs : List Block) :
    usedTotal (bs ++ cs) = usedTotal bs + usedTotal cs := by
  rw [usedTotal, filter_append, Layout.total, map_append, sum_append]
  rfl

theorem usedTotal_cons (b : Block) (bs : List Block) :
    usedTotal (b :: bs) = (if b.used then b.size else 0) + usedTotal bs := by
  rw [usedTotal, filter_cons]
  split_ifs
  · rw [Layout.total, map_cons, sum_cons]
    rfl
  · rw [Nat.zero_add]
    rfl

structure Rep (h : O1Heap) (ids : List Nat) : Prop where
  shape : ∃ lists, Shape h ids lists ∅
  layout : Layout h.diagnostics.capacity (h.row ids)
  allocated : h.diagnostics.allocated = usedTotal (h.row ids)
  small : h.diagnostics.capacity < 2 ^ 32

namespace Rep

variable {h : O1Heap} {ids front back : List Nat} {id : Nat}

theorem layout_split (hr : Rep h (front ++ id :: back)) :
    Layout h.diagnostics.capacity (h.row front ++ h.blockOf id :: h.row back) := by
  rw [← row_cons, ← row_append]
  exact hr.layout

theorem spans {rest : List Nat} (hr : Rep h (front ++ id :: rest ++ back)) :
    (∀ x ∈ front, (h.nodes x).offset + (h.nodes x).size ≤ (h.nodes id).offset) ∧
      Tiles (h.nodes id).offset (h.row (id :: rest))
        ((h.nodes id).offset + Layout.total (h.row (id :: rest))) ∧
      (∀ x ∈ back, (h.nodes id).offset + Layout.total (h.row (id :: rest)) ≤ (h.nodes x).offset) ∧
      (h.nodes id).offset + Layout.total (h.row (id :: rest)) < 2 ^ 32 := by
  obtain ⟨stop, htiles, hstop, -⟩ := hr.layout.tiles
  rw [row_append, row_append] at htiles
  obtain ⟨high, hlow, hback⟩ := tiles_append.mp htiles
  obtain ⟨low, hfront, hmid⟩ := tiles_append.mp hlow
  obtain rfl : (h.nodes id).offset = low := hmid.1
  obtain rfl := Layout.stop_eq_add_total hmid
  exact ⟨fun x hx => hfront.stop_le (mem_map_of_mem hx), hmid,
    fun x hx => hback.le_offset (mem_map_of_mem hx),
    Nat.lt_of_le_of_lt (Nat.le_trans hback.le hstop) hr.small⟩

theorem min_size (hr : Rep h ids) (hid : id ∈ ids) : 256 ≤ (h.nodes id).size :=
  hr.layout.min (h.blockOf id) (mem_map_of_mem hid)

theorem stop_le (hr : Rep h ids) (hid : id ∈ ids) :
    (h.nodes id).offset + (h.nodes id).size ≤ h.diagnostics.capacity := by
  obtain ⟨front, back, rfl⟩ := append_of_mem hid
  exact hr.layout_split.stop_le

theorem stop_lt (hr : Rep h ids) (hid : id ∈ ids) :
    (h.nodes id).offset + (h.nodes id).size < 2 ^ 32 :=
  Nat.lt_of_le_of_lt (hr.stop_le hid) hr.small

theorem disjoint (hr : Rep h ids) {x y : Nat} (hx : x ∈ ids) (hy : y ∈ ids) (hne : x ≠ y) :
    (h.nodes x).offset + (h.nodes x).size ≤ (h.nodes y).offset ∨
      (h.nodes y).offset + (h.nodes y).size ≤ (h.nodes x).offset := by
  have hsym : Std.Symm fun x y => (h.nodes x).offset + (h.nodes x).size ≤ (h.nodes y).offset ∨
      (h.nodes y).offset + (h.nodes y).size ≤ (h.nodes x).offset := ⟨fun _ _ h => h.symm⟩
  have hpairs : ids.Pairwise fun x y =>
      (h.nodes x).offset + (h.nodes x).size ≤ (h.nodes y).offset ∨
        (h.nodes y).offset + (h.nodes y).size ≤ (h.nodes x).offset :=
    (pairwise_map.mp hr.layout.pairwise).imp .inl
  exact hpairs.forall hx hy hne

theorem eq_of_offset (hr : Rep h ids) {x y : Nat} (hx : x ∈ ids) (hy : y ∈ ids)
    (hoffset : (h.nodes x).offset = (h.nodes y).offset) : x = y := by
  by_contra hne
  have := hr.disjoint hx hy hne
  have := hr.min_size hx
  have := hr.min_size hy
  omega

/-! ### Queries -/

theorem indexed_iff (hr : Rep h ids) {o : Nat} :
    h.hashes.get o = some id ∧ (h.nodes id).used = true ↔
      id ∈ ids ∧ (h.nodes id).used = true ∧ (h.nodes id).offset = o := by
  obtain ⟨lists, hs⟩ := hr.shape
  constructor
  · rintro ⟨hget, hused⟩
    obtain ⟨-, hoffset, hin⟩ := hs.index hget
    exact ⟨(hin hused).resolve_right (Set.notMem_empty id), hused, hoffset⟩
  · rintro ⟨hid, hused, rfl⟩
    exact ⟨hs.indexed hid (Set.notMem_empty id) hused, hused⟩

theorem allocationSize_eq_some (hr : Rep h ids) {addr n : Nat} :
    h.allocationSize addr = some n ↔ h.base ≤ addr ∧ ⟨h.offsetOf addr, n, true⟩ ∈ h.row ids := by
  rw [allocationSize]
  by_cases hbase : addr < h.base
  · rw [if_pos hbase]
    exact ⟨nofun, fun hn => absurd hn.1 (Nat.not_le.mpr hbase)⟩
  rw [if_neg hbase, and_iff_right (Nat.not_lt.mp hbase)]
  constructor
  · intro hsize
    cases hget : h.hashes.get (h.offsetOf addr) with
    | none => simp [hget] at hsize
    | some id =>
      simp only [hget, Option.ite_none_right_eq_some, Option.some.injEq] at hsize
      obtain ⟨hused, rfl⟩ := hsize
      obtain ⟨hid, -, hoffset⟩ := hr.indexed_iff.mp ⟨hget, hused⟩
      refine mem_map.mpr ⟨id, hid, ?_⟩
      rw [blockOf, hoffset, hused]
  · intro hmem
    obtain ⟨id, hid, hblock⟩ := mem_map.mp hmem
    obtain ⟨hoffset, hsize, hused⟩ := Block.mk.inj hblock
    rw [(hr.indexed_iff.mpr ⟨hid, hused, hoffset⟩).1]
    simp [hused, hsize]

end Rep

theorem checkFragmentExists_eq (h : O1Heap) (addr : Nat) :
    h.checkFragmentExists addr = (h.allocationSize addr).isSome := by
  rw [checkFragmentExists, allocationSize]
  by_cases hbase : addr < h.base
  · rw [if_pos hbase, if_pos hbase]
    rfl
  rw [if_neg hbase, if_neg hbase]
  cases h.hashes.get (h.offsetOf addr) with
  | none => rfl
  | some id => cases hused : (h.nodes id).used <;> simp [hused]

end Mwemu.O1Heap
