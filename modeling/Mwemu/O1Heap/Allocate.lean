import Mwemu.O1Heap.Work

/-!
# Allocation

A request takes the first fragment of the lowest bin whose fragments are all large enough. It gets
the front of the fragment; the rest becomes a new free fragment, unless it is too small for one. So a
request succeeds just when some free block is large enough, and the layout is edited at that block.
-/

namespace Mwemu.O1Heap

open Mwemu.Lib List Nat

/-! ### The search -/

variable {optimal : Nat}

theorem testBit_from {mask i : Nat} (hoptimal : optimal < 64) :
    (mask &&& (2 ^ 64 - 2 ^ optimal)).testBit i =
      (mask.testBit i && (decide (i < 64) && !decide (i < optimal))) := by
  have hpos : 0 < 2 ^ optimal := Nat.two_pow_pos optimal
  have hlt : 2 ^ optimal - 1 < 2 ^ 64 :=
    Nat.lt_of_lt_of_le (Nat.sub_lt hpos (by decide)) (Nat.pow_le_pow_right (by decide) hoptimal.le)
  rw [← Nat.sub_add_cancel hpos, Nat.testBit_and, Nat.testBit_two_pow_sub_succ hlt,
    Nat.testBit_two_pow_sub_one]

variable {h : O1Heap} {lists : Nat → List Nat} {idx : Nat}

theorem Bins.smallestBin_eq_some (hb : Bins h lists) (hoptimal : optimal < 64)
    (hsome : h.smallestBin optimal = some idx) : optimal ≤ idx ∧ lists idx ≠ [] := by
  have hbit := List.find?_some hsome
  rw [testBit_from hoptimal, Bool.and_eq_true, hb.mask] at hbit
  refine ⟨?_, hbit.1⟩
  have hidx := hbit.2
  simp only [Bool.and_eq_true, Bool.not_eq_true', decide_eq_false_iff_not, not_lt] at hidx
  exact hidx.2

theorem Bins.smallestBin_eq_none (hb : Bins h lists) (hoptimal : optimal < 64)
    (hnone : h.smallestBin optimal = none) {i : Nat} (hi : optimal ≤ i) : lists i = [] := by
  by_contra hne
  have hlt := hb.small hne
  have hbit := List.find?_eq_none.mp hnone i (mem_range.mpr hlt)
  rw [testBit_from hoptimal, (hb.mask i).mpr hne, decide_eq_true hlt,
    decide_eq_false (not_lt.mpr hi)] at hbit
  exact hbit rfl

variable {id : Nat}

theorem Bins.unbin_of_head (hb : Bins h lists) (hhead : h.bins idx = some id)
    (hidx : binIndex (h.nodes id).size = idx) (hsize : fragmentSizeMin ≤ (h.nodes id).size) :
    { h with bins := fun i => if i = idx then none else h.bins i }.unbin id = h.unbin id := by
  rw [hb.head] at hhead
  have hbound : ¬ numBinsMax ≤ idx :=
    Nat.not_le_of_lt (Nat.lt_trans (hb.small_of_mem (mem_of_head? hhead)) (by decide))
  have hprev : (h.nodes id).prevFree = none := by
    obtain ⟨ys, hlist⟩ := List.head?_eq_some_iff.mp hhead
    have hlinked := hb.linked idx
    rw [hlist] at hlinked
    exact hlinked.1
  have hbins : (fun i => if i = idx then (h.nodes id).nextFree else if i = idx then none
      else h.bins i) = fun i => if i = idx then (h.nodes id).nextFree else h.bins i := by
    funext i
    split_ifs <;> rfl
  rw [O1Heap.unbin, O1Heap.unbin]
  simp only [hprev, hidx, hbins, if_neg hbound, if_neg (not_lt.mpr hsize), if_true]

/-! ### Taking a fragment -/

def takenBlocks (b : Block) (size : Nat) : List Block :=
  if size + 256 ≤ b.size then
    [⟨b.offset, size, true⟩, ⟨b.offset + size, b.size - size, false⟩]
  else [⟨b.offset, size, true⟩]

theorem usedTotal_takenBlocks (b : Block) (size : Nat) : usedTotal (takenBlocks b size) = size := by
  rw [takenBlocks]
  split_ifs <;> rfl

variable {size : Nat}

theorem Layout.take {cap : Nat} {l r : List Block} {b : Block} (h : Layout cap (l ++ b :: r))
    (hfree : b.used = false) (hmin : 256 ≤ size) (hmod : size % 256 = 0) (hle : size ≤ b.size) :
    Layout cap (l ++ takenBlocks b size ++ r) := by
  have h' : Layout cap (l ++ b :: [] ++ r) := by
    rwa [append_assoc]
  have htotal : Layout.total [b] = b.size := Nat.add_zero _
  rw [takenBlocks]
  split_ifs with hsplit
  · exact h'.edit_split (by omega) hmin hmod (by omega) (h.right_used hfree)
  · exact h'.edit_used hmin (by omega) (by omega) (.inr hmod)

theorem blockOf_markUsed (h : O1Heap) (id offset size i : Nat) :
    (h.markUsed id offset size).blockOf i =
      if i = id then ⟨(h.blockOf i).offset, size % 2 ^ 32, true⟩ else h.blockOf i := by
  change ((h.setUsed id true).setSize id size).blockOf i = _
  rw [blockOf_setSize, blockOf_setUsed]
  split_ifs <;> rfl

theorem Work.markUsed {h₁ : O1Heap} {front back mid : List Nat}
    (hw : Work h front [id] back h₁ mid {id}) (hid : id ∈ mid)
    (hmid : ∀ y ∈ mid, y ≠ id → (h₁.nodes y).used = false) (hfree : (h.nodes id).used = false)
    (hdiagnostics : h₁.diagnostics = h.diagnostics) (hlayout : Layout h.diagnostics.capacity
      (h.row front ++ takenBlocks (h.blockOf id) size ++ h.row back))
    (hrow : (h₁.markUsed id (h.nodes id).offset size).row mid = takenBlocks (h.blockOf id) size) :
    Becomes h (h₁.markUsed id (h.nodes id).offset size)
      (h.row front ++ takenBlocks (h.blockOf id) size ++ h.row back) := by
  have hpark : id ∈ ({id} : Set Nat) := rfl
  have hw₁ := (hw.setUsed hpark true).setSize hpark size
  have hw₂ := hw₁.insertEntry ?_ (mem_singleton_self id) hid
  · have hw₃ : Work h front [id] back (h₁.markUsed id (h.nodes id).offset size) mid {id} :=
      hw₂.setDiagnostics rfl
    refine hw₃.finish ?_ hrow hlayout ?_
    · rintro y rfl
      have hused := congrArg Block.used (blockOf_markUsed h₁ y (h.nodes y).offset size y)
      rw [if_pos rfl] at hused
      refine .inl ⟨hid, hused, ?_⟩
      rw [hw₃.offset y (hw.old_lt (by simp))]
      exact OrdMap.get_insert_self _ _
    · have hzero : usedTotal (h.row [id]) = 0 := by
        rw [row_cons, usedTotal_cons, if_neg (by rw [blockOf, hfree]; exact Bool.false_ne_true)]
        rfl
      rw [usedTotal_takenBlocks, hzero, ← hdiagnostics]
      rfl
  · intro y hy hyp
    rw [nodes_setSize, nodes_setUsed]
    exact (if_neg hyp).trans (hmid y hy hyp)

theorem Rep.take {front back : List Nat} (hr : Rep h (front ++ [id] ++ back))
    (hfree : (h.nodes id).used = false) (hmin : 256 ≤ size) (hmod : size % 256 = 0)
    (hle : size ≤ (h.nodes id).size) :
    ∃ h₁ h', h.unbin id = some h₁ ∧ (h₁.nodes id).offset = (h.nodes id).offset ∧
      h₁.takeFragment id size = some h' ∧
      Becomes h h' (h.row front ++ takenBlocks (h.blockOf id) size ++ h.row back) := by
  have hid : id ∈ front ++ [id] ++ back := by simp
  have hstop := hr.stop_lt hid
  have htotal : Layout.total (h.row [id]) = (h.nodes id).size := Nat.add_zero _
  have hsizeLt : size % 2 ^ 32 = size := mod_eq_of_lt (by omega)
  have hlayout := hr.layout
  rw [row_append, row_append, append_assoc] at hlayout
  have hlayout' := Layout.take hlayout hfree hmin hmod hle
  obtain ⟨h₁, hunbin, hsame, hw⟩ := hr.work.unbin (mem_singleton_self id)
    (mem_singleton_self id) (Set.notMem_empty id) hfree (hr.min_size hid)
  rw [insert_empty_eq] at hw
  have hleftover : ((h₁.nodes id).size + 2 ^ 32 - size) % 2 ^ 32 = (h.nodes id).size - size := by
    rw [hsame.size]
    omega
  have hnext : (h₁.nodes id).next = back.head? := by
    obtain ⟨lists, hs⟩ := hw.shape
    have hlinked := hs.linked
    rw [append_assoc] at hlinked
    exact hlinked.at_split.1
  have hidLt : id < h₁.fresh := lt_of_lt_of_le (hw.old_lt hid) hw.fresh
  refine ⟨h₁, ?_⟩
  by_cases hsplit : size + 256 ≤ (h.nodes id).size
  · have hfits : 256 ≤ (h.nodes id).size - size := Nat.le_sub_of_add_le' hsplit
    obtain ⟨h₂, hcut, hw₂, hold, hnew, -, hdiagnostics⟩ := hw.splitOff (by simp)
      (show size + ((h.nodes id).size - size) = _ by omega) hfits
    refine ⟨h₂.markUsed id (h.nodes id).offset size, hunbin, hsame.offset id, ?_,
      hw₂.markUsed mem_cons_self ?_ hfree (hdiagnostics.trans hsame.diagnostics) hlayout' ?_⟩
    · rw [takeFragment, hleftover, hsame.offset, hnext, hcut]
      exact if_pos hfits
    · intro y hy hne
      obtain rfl : y = h₁.fresh := by simpa [hne] using hy
      exact congrArg Block.used hnew
    · rw [row_cons, row_cons, blockOf_markUsed, if_pos rfl, hold id hidLt, blockOf_markUsed,
        if_neg (ne_of_gt hidLt), hnew, hsizeLt, blockOf_setSize, hsame.blockOf, takenBlocks]
      exact (if_pos hsplit).symm
  · refine ⟨(h₁.setSize id size).markUsed id (h.nodes id).offset size, hunbin, hsame.offset id, ?_,
      (hw.setSize rfl size).markUsed mem_cons_self ?_ hfree hsame.diagnostics hlayout' ?_⟩
    · rw [takeFragment, hleftover, hsame.offset]
      exact if_neg (by rw [fragmentSizeMin]; omega)
    · intro y hy hne
      exact absurd (mem_singleton.mp hy) hne
    · rw [row_cons, blockOf_markUsed, if_pos rfl, hsizeLt, blockOf_setSize, hsame.blockOf, takenBlocks]
      exact (if_neg hsplit).symm

/-! ### Requests -/

def Fits (bs : List Block) (amount : Nat) : Prop :=
  amount ≠ 0 ∧ fragmentSize amount ≠ 0 ∧ ∃ b ∈ bs, b.used = false ∧ fragmentSize amount ≤ b.size

theorem Rep.becomes_countOom {ids : List Nat} (hr : Rep h ids) :
    Becomes h h.countOom (h.row ids) := by
  obtain ⟨lists, hs⟩ := hr.shape
  exact ⟨rfl, rfl, ids, ⟨⟨lists, hs.of_diagnostics _⟩, hr.layout, hr.allocated, hr.small⟩, rfl⟩

section Search

variable {h : O1Heap} {ids : List Nat} {amount : Nat}

theorem Rep.fragmentSize_eq_of_le (hr : Rep h ids) (hsize : fragmentSize amount ≠ 0)
    (hle : fragmentSize amount ≤ h.diagnostics.capacity) :
    ∃ k < 64, fragmentSize amount = 256 * 2 ^ k := by
  obtain ⟨k, hk⟩ := fragmentSize_eq hsize
  refine ⟨k, ?_, hk⟩
  have hlt : 2 ^ k < 2 ^ 64 := by
    have := hr.small
    omega
  exact (Nat.pow_lt_pow_iff_right (by decide)).mp hlt

variable {k : Nat}

theorem log2Ceil_lt (hk : k < 64) : log2Ceil (256 * 2 ^ k / fragmentSizeMin) < 64 := by
  rwa [fragmentSizeMin, Nat.mul_div_cancel_left _ (by decide), log2Ceil_two_pow]

theorem Rep.not_fits_of_smallestBin (hr : Rep h ids) (hk : k < 64)
    (hsize : fragmentSize amount = 256 * 2 ^ k)
    (hnone : h.smallestBin (log2Ceil (fragmentSize amount / fragmentSizeMin)) = none) :
    ¬ Fits (h.row ids) amount := by
  rintro ⟨-, -, b, hb, hfree, hle⟩
  obtain ⟨id, hid, rfl⟩ := mem_map.mp hb
  obtain ⟨lists, hs⟩ := hr.shape
  have hmem := (hs.binned _ id).mpr ⟨hid, Set.notMem_empty id, hfree, rfl⟩
  rw [hsize] at hnone hle
  have hi := (log2Ceil_le_binIndex_iff (hr.min_size hid)).mpr hle
  rw [hs.bins.smallestBin_eq_none (log2Ceil_lt hk) hnone hi] at hmem
  cases hmem

theorem Rep.bins_of_smallestBin (hr : Rep h ids) (hk : k < 64)
    (hsize : fragmentSize amount = 256 * 2 ^ k)
    (hsome : h.smallestBin (log2Ceil (fragmentSize amount / fragmentSizeMin)) = some idx) :
    ∃ id ∈ ids, h.bins idx = some id ∧ binIndex (h.nodes id).size = idx ∧
      (h.nodes id).used = false ∧ fragmentSize amount ≤ (h.nodes id).size := by
  obtain ⟨lists, hs⟩ := hr.shape
  rw [hsize] at hsome ⊢
  obtain ⟨hi, hne⟩ := hs.bins.smallestBin_eq_some (log2Ceil_lt hk) hsome
  obtain ⟨id, ys, hlist⟩ := exists_cons_of_ne_nil hne
  have hmem : id ∈ lists idx := by
    rw [hlist]
    exact mem_cons_self
  obtain ⟨hid, -, hfree, rfl⟩ := (hs.binned idx id).mp hmem
  refine ⟨id, hid, ?_, rfl, hfree, (log2Ceil_le_binIndex_iff (hr.min_size hid)).mp hi⟩
  rw [hs.bins.head, hlist]
  rfl

theorem Rep.allocate_of_not_fits (hr : Rep h ids) (hfits : ¬ Fits (h.row ids) amount) :
    ∃ h', h.allocate amount = some (none, h') ∧ Becomes h h' (h.row ids) := by
  have hsame : Becomes h h (h.row ids) := ⟨rfl, rfl, ids, hr, rfl⟩
  rw [allocate]
  by_cases hzero : amount = 0
  · exact ⟨h, if_pos hzero, hsame⟩
  rw [if_neg hzero]
  by_cases hlarge : fragmentSize amount = 0 ∨ h.diagnostics.capacity < fragmentSize amount
  · exact ⟨h.countOom, if_pos hlarge, hr.becomes_countOom⟩
  rw [if_neg hlarge]
  obtain ⟨hsize, hle⟩ := not_or.mp hlarge
  obtain ⟨k, hk, hpow⟩ := hr.fragmentSize_eq_of_le hsize (not_lt.mp hle)
  cases hsearch : h.smallestBin (log2Ceil (fragmentSize amount / fragmentSizeMin)) with
  | none => exact ⟨h, rfl, hsame⟩
  | some idx =>
    obtain ⟨id, hid, -, -, hfree, henough⟩ := hr.bins_of_smallestBin hk hpow hsearch
    exact absurd ⟨hzero, hsize, h.blockOf id, mem_map_of_mem hid, hfree, henough⟩ hfits

theorem Rep.allocate_of_fits (hr : Rep h ids) (hfits : Fits (h.row ids) amount) :
    ∃ l b r h', h.row ids = l ++ b :: r ∧ b.used = false ∧ fragmentSize amount ≤ b.size ∧
      h.allocate amount = some (some ((b.offset + h.base) % 2 ^ 64), h') ∧
      Becomes h h' (l ++ takenBlocks b (fragmentSize amount) ++ r) := by
  obtain ⟨hzero, hsize, b, hb, -, hble⟩ := id hfits
  have hle : fragmentSize amount ≤ h.diagnostics.capacity := by
    obtain ⟨i, hi, rfl⟩ := mem_map.mp hb
    exact le_trans hble (le_trans (le_add_left _ _) (hr.stop_le hi))
  obtain ⟨k, hk, hpow⟩ := hr.fragmentSize_eq_of_le hsize hle
  cases hsearch : h.smallestBin (log2Ceil (fragmentSize amount / fragmentSizeMin)) with
  | none => exact absurd hfits (hr.not_fits_of_smallestBin hk hpow hsearch)
  | some idx =>
    obtain ⟨id, hid, hhead, hidx, hfree, henough⟩ := hr.bins_of_smallestBin hk hpow hsearch
    have hmin := hr.min_size hid
    obtain ⟨lists, hs⟩ := hr.shape
    obtain ⟨front, back, rfl⟩ := append_of_mem hid
    rw [append_cons] at hr
    obtain ⟨h₁, h', hunbin, hoffset, htake, hbecomes⟩ := hr.take hfree
      (by rw [hpow]; exact Nat.le_mul_of_pos_right _ (Nat.two_pow_pos k))
      (by rw [hpow]; exact mul_mod_right _ _) henough
    refine ⟨h.row front, h.blockOf id, h.row back, h', row_append _ _ _, hfree, henough, ?_, hbecomes⟩
    have haddr : ((h₁.nodes id).offset + h'.base) % 2 ^ 64 =
        ((h.blockOf id).offset + h.base) % 2 ^ 64 := by
      rw [hoffset, hbecomes.base, blockOf]
    rw [allocate, if_neg hzero, if_neg (not_or.mpr ⟨hsize, not_lt.mpr hle⟩), hsearch, ← haddr]
    exact Option.bind_eq_some_iff.mpr ⟨id, hhead, Option.bind_eq_some_iff.mpr
      ⟨h₁, (hs.bins.unbin_of_head hhead hidx hmin).trans hunbin,
        Option.bind_eq_some_iff.mpr ⟨h', htake, rfl⟩⟩⟩

end Search

end Mwemu.O1Heap
