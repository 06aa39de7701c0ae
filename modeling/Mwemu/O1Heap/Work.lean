import Mwemu.O1Heap.Rep

/-!
# Work on a part of the list

An operation takes a few neighbours of the list out of the bins, changes their sizes and flags, puts
one or two fragments in their place, and lets go of them. What is around them stays as it was, so the
layout is edited at one place. The lemmas follow the work step by step, from the heap before the
operation to the one after it.
-/

namespace Mwemu.O1Heap

open Mwemu.Lib List Nat

/-- The heap after an operation: the arena is the same, and the row is the given one. -/
structure Becomes (h h' : O1Heap) (bs : List Block) : Prop where
  base : h'.base = h.base
  capacity : h'.diagnostics.capacity = h.diagnostics.capacity
  rep : ∃ ids, Rep h' ids ∧ h'.row ids = bs

variable {h : O1Heap} {bs : List Block}

theorem Becomes.layout {h' : O1Heap} (hb : Becomes h h' bs) : Layout h.diagnostics.capacity bs := by
  obtain ⟨ids, hr, rfl⟩ := hb.rep
  rw [← hb.capacity]
  exact hr.layout

theorem Becomes.trans {h' h'' : O1Heap} {bs' : List Block} (hb : Becomes h h' bs)
    (hb' : Becomes h' h'' bs') : Becomes h h'' bs' :=
  ⟨hb'.base.trans hb.base, hb'.capacity.trans hb.capacity, hb'.rep⟩

/-- The heap during the work on `old`, where `mid` is now. -/
structure Work (h : O1Heap) (front old back : List Nat) (h₁ : O1Heap) (mid : List Nat)
    (parked : Set Nat) : Prop where
  rep : Rep h (front ++ old ++ back)
  shape : ∃ lists, Shape h₁ (front ++ mid ++ back) lists parked
  base : h₁.base = h.base
  capacity : h₁.diagnostics.capacity = h.diagnostics.capacity
  fresh : h.fresh ≤ h₁.fresh
  parked_old : ∀ x ∈ parked, x ∈ old
  offset : ∀ x < h.fresh, (h₁.nodes x).offset = (h.nodes x).offset
  around : ∀ x ∈ front ++ back, h₁.blockOf x = h.blockOf x

theorem Rep.work {front old back : List Nat} (hr : Rep h (front ++ old ++ back)) :
    Work h front old back h old ∅ :=
  ⟨hr, hr.shape, rfl, rfl, le_refl _, nofun, fun _ _ => rfl, fun _ _ => rfl⟩

namespace Work

variable {h h₁ h₂ : O1Heap} {front old back mid mid' : List Nat} {parked parked' : Set Nat} {x y o : Nat}

theorem old_lt (hw : Work h front old back h₁ mid parked) (hx : x ∈ front ++ old ++ back) :
    x < h.fresh := by
  obtain ⟨lists, hs⟩ := hw.rep.shape
  exact hs.made hx

theorem mid_mem (hx : x ∈ mid) : x ∈ front ++ mid ++ back :=
  mem_append_left _ (mem_append_right _ hx)

theorem around_mem (hx : x ∈ front ++ back) : x ∈ front ++ old ++ back := by
  simp only [mem_append] at hx ⊢
  tauto

theorem around_not_old (hw : Work h front old back h₁ mid parked) (hx : x ∈ front ++ back) :
    x ∉ old := by
  obtain ⟨lists, hs⟩ := hw.rep.shape
  have hnodup := hs.nodup
  simp only [nodup_append, mem_append] at hnodup hx
  obtain ⟨⟨-, -, hfront⟩, -, hback⟩ := hnodup
  rcases hx with hx | hx
  · exact fun hold => hfront x hx x hold rfl
  · exact fun hold => hback x (.inr hold) x hx rfl

theorem step (hw : Work h front old back h₁ mid parked)
    (hs : ∃ lists, Shape h₂ (front ++ mid' ++ back) lists parked') (hbase : h₂.base = h₁.base)
    (hcapacity : h₂.diagnostics.capacity = h₁.diagnostics.capacity) (hfresh : h₁.fresh ≤ h₂.fresh)
    (hparked : ∀ x ∈ parked', x ∈ old)
    (hoffset : ∀ x < h₁.fresh, (h₂.nodes x).offset = (h₁.nodes x).offset)
    (haround : ∀ x < h₁.fresh, x ∉ old → h₂.blockOf x = h₁.blockOf x) :
    Work h front old back h₂ mid' parked' where
  rep := hw.rep
  shape := hs
  base := hbase.trans hw.base
  capacity := hcapacity.trans hw.capacity
  fresh := le_trans hw.fresh hfresh
  parked_old := hparked
  offset x hx := (hoffset x (lt_of_lt_of_le hx hw.fresh)).trans (hw.offset x hx)
  around x hx := by
    have hlt := lt_of_lt_of_le (hw.old_lt (around_mem hx)) hw.fresh
    exact (haround x hlt (hw.around_not_old hx)).trans (hw.around x hx)

/-! ### Taking fragments out -/

section

variable (hw : Work h front old back h₁ mid parked)
include hw

theorem unbin (hx : x ∈ old) (hmid : x ∈ mid)
    (hpark : x ∉ parked) (hfree : (h₁.nodes x).used = false) (hsize : 256 ≤ (h₁.nodes x).size) :
    ∃ h₂, h₁.unbin x = some h₂ ∧ SameCore h₁ h₂ ∧
      Work h front old back h₂ mid (insert x parked) := by
  obtain ⟨lists, hs⟩ := hw.shape
  have hmem : x ∈ front ++ mid ++ back := mid_mem hmid
  obtain ⟨h₂, hunbin, hsame, hs₂⟩ := hs.unbin hmem hpark hfree hsize
  refine ⟨h₂, hunbin, hsame, hw.step hs₂ hsame.base (by rw [hsame.diagnostics])
    (le_of_eq hsame.fresh.symm) ?_ (fun i _ => hsame.offset i) fun i _ _ => hsame.blockOf i⟩
  rintro y (rfl | hy)
  · exact hx
  · exact hw.parked_old y hy

theorem park (hx : x ∈ old)
    (hused : (h₁.nodes x).used = true) : Work h front old back h₁ mid (insert x parked) := by
  obtain ⟨lists, hs⟩ := hw.shape
  refine hw.step ⟨lists, hs.park hused⟩ rfl rfl (le_refl _) ?_ (fun _ _ => rfl) fun _ _ _ => rfl
  rintro y (rfl | hy)
  · exact hx
  · exact hw.parked_old y hy

theorem rebin (hmid : x ∈ mid) (hpark : x ∈ parked)
    (hfree : (h₁.nodes x).used = false) (hsize : 256 ≤ (h₁.nodes x).size)
    (hlt : (h₁.nodes x).size < 2 ^ 32) : ∃ h₂, h₁.rebin x = some h₂ ∧ SameCore h₁ h₂ ∧
      Work h front old back h₂ mid (parked \ {x}) := by
  obtain ⟨lists, hs⟩ := hw.shape
  obtain ⟨h₂, hrebin, hsame, hs₂⟩ := hs.rebin (mid_mem hmid) hpark hfree hsize (binIndex_lt hlt)
  exact ⟨h₂, hrebin, hsame, hw.step hs₂ hsame.base (by rw [hsame.diagnostics])
    (le_of_eq hsame.fresh.symm) (fun y hy => hw.parked_old y hy.1)
    (fun i _ => hsame.offset i) fun i _ _ => hsame.blockOf i⟩

theorem mid_nodup : mid.Nodup := by
  obtain ⟨lists, hs⟩ := hw.shape
  exact hs.nodup.of_append_left.of_append_right

theorem next_eq (before : List Nat)
    (hmid : mid = before ++ [x]) : (h₁.nodes x).next = back.head? := by
  obtain ⟨lists, hs⟩ := hw.shape
  have hlinked := hs.linked
  rw [hmid, ← append_assoc, append_assoc _ [x]] at hlinked
  exact hlinked.at_split.1

end

/-! ### Changes -/

theorem setSize (hw : Work h front old back h₁ mid parked) (hx : x ∈ parked) (size : Nat) :
    Work h front old back (h₁.setSize x size) mid parked := by
  obtain ⟨lists, hs⟩ := hw.shape
  refine hw.step ⟨lists, hs.setSize hx size⟩ rfl rfl (le_refl _) hw.parked_old ?_ ?_
  · intro i _
    rw [nodes_setSize]
  · intro i _ hi
    rw [blockOf_setSize, if_neg fun heq : i = x => hi (heq ▸ hw.parked_old x hx)]

theorem setUsed (hw : Work h front old back h₁ mid parked) (hx : x ∈ parked) (used : Bool) :
    Work h front old back (h₁.setUsed x used) mid parked := by
  obtain ⟨lists, hs⟩ := hw.shape
  refine hw.step ⟨lists, hs.setUsed hx used⟩ rfl rfl (le_refl _) hw.parked_old ?_ ?_
  · intro i _
    rw [nodes_setUsed]
  · intro i _ hi
    rw [blockOf_setUsed, if_neg fun heq : i = x => hi (heq ▸ hw.parked_old x hx)]

theorem setDiagnostics (hw : Work h front old back h₁ mid parked) {d : Diagnostics}
    (hd : d.capacity = h₁.diagnostics.capacity) :
    Work h front old back { h₁ with diagnostics := d } mid parked := by
  obtain ⟨lists, hs⟩ := hw.shape
  exact hw.step ⟨lists, hs.of_diagnostics d⟩ rfl hd (le_refl _) hw.parked_old (fun _ _ => rfl)
    fun _ _ _ => rfl

/-! ### The index -/

theorem around_offset_ne (hw : Work h front old back h₁ mid parked) (hy : y ∈ old) :
    ∀ x ∈ front ++ back, (h.nodes x).offset ≠ (h.nodes y).offset := by
  intro x hx heq
  have hxy := hw.rep.eq_of_offset (around_mem hx) (mid_mem hy) heq
  exact hw.around_not_old hx (hxy ▸ hy)

theorem offset_ne (hw : Work h front old back h₁ mid parked)
    (hmid : ∀ y ∈ mid, y ∉ parked → (h₁.nodes y).used = false)
    (ho : ∀ x ∈ front ++ back, (h.nodes x).offset ≠ o) :
    ∀ y ∈ front ++ mid ++ back, y ∉ parked → (h₁.nodes y).used = true → (h₁.nodes y).offset ≠ o := by
  intro y hy hyp hyu
  by_cases hym : y ∈ mid
  · rw [hmid y hym hyp] at hyu
    cases hyu
  have hy' : y ∈ front ++ back := by
    simp only [mem_append] at hy ⊢
    tauto
  rw [hw.offset y (hw.old_lt (around_mem hy'))]
  exact ho y hy'

theorem removeEntry (hw : Work h front old back h₁ mid parked)
    (hmid : ∀ y ∈ mid, y ∉ parked → (h₁.nodes y).used = false) (hy : y ∈ old) :
    Work h front old back { h₁ with hashes := h₁.hashes.remove (h.nodes y).offset } mid parked := by
  obtain ⟨lists, hs⟩ := hw.shape
  exact hw.step ⟨lists, hs.remove (hw.offset_ne hmid (hw.around_offset_ne hy))⟩ rfl rfl
    (le_refl _) hw.parked_old (fun _ _ => rfl) fun _ _ _ => rfl

theorem insertEntry (hw : Work h front old back h₁ mid parked)
    (hmid : ∀ y ∈ mid, y ∉ parked → (h₁.nodes y).used = false) (hx : x ∈ old) (hx' : x ∈ mid) :
    Work h front old back { h₁ with hashes := h₁.hashes.insert (h.nodes x).offset x } mid parked := by
  obtain ⟨lists, hs⟩ := hw.shape
  have hmem : x ∈ front ++ mid ++ back := mid_mem hx'
  have hoffset := hw.offset x (hw.old_lt (mid_mem hx))
  have hs' := hs.insert (hs.made hmem) (fun _ => .inl hmem) fun y hy hyp hyu hoff =>
    absurd (hoff.trans hoffset) (hw.offset_ne hmid (hw.around_offset_ne hx) y hy hyp hyu)
  rw [hoffset] at hs'
  exact hw.step ⟨lists, hs'⟩ rfl rfl (le_refl _) hw.parked_old (fun _ _ => rfl) fun _ _ _ => rfl

end Work

/-! ### The list -/

namespace Work

variable {h h₁ h₂ : O1Heap} {front rest back mid : List Nat} {parked : Set Nat} {id x o : Nat}

theorem around_offset (hw : Work h front (id :: rest) back h₁ mid parked)
    (hlow : (h.nodes id).offset ≤ o)
    (hhigh : o < (h.nodes id).offset + Layout.total (h.row (id :: rest))) :
    ∀ x ∈ front ++ back, (h.nodes x).offset ≠ o := by
  intro x hx
  have hmin := hw.rep.min_size (around_mem hx)
  obtain ⟨hfront, -, hback, -⟩ := hw.rep.spans
  rcases mem_append.mp hx with hx | hx
  · have := hfront x hx
    omega
  · have := hback x hx
    omega

theorem splitOff (hw : Work h front (id :: rest) back h₁ (id :: rest) parked)
    (hall : ∀ y ∈ id :: rest, y ∈ parked) {newSize leftover : Nat}
    (hsum : newSize + leftover = Layout.total (h.row (id :: rest))) (hmin : 256 ≤ leftover) :
    ∃ h₂, h₁.splitOff id newSize ((h.nodes id).offset + newSize) leftover back.head? = some h₂ ∧
      Work h front (id :: rest) back h₂ [id, h₁.fresh] parked ∧
      (∀ y < h₁.fresh, h₂.blockOf y = (h₁.setSize id newSize).blockOf y) ∧
      h₂.blockOf h₁.fresh = ⟨(h.nodes id).offset + newSize, leftover, false⟩ ∧
      h₂.hashes = h₁.hashes.insert ((h.nodes id).offset + newSize) h₁.fresh ∧
      h₂.diagnostics = h₁.diagnostics := by
  obtain ⟨-, -, -, hlt⟩ := hw.rep.spans
  have hid : id ∈ parked := hall id mem_cons_self
  have hoffset : ((h.nodes id).offset + newSize) % 2 ^ 32 = (h.nodes id).offset + newSize :=
    mod_eq_of_lt (by omega)
  have hsize : leftover % 2 ^ 32 = leftover := mod_eq_of_lt (by omega)
  have hlow : (h.nodes id).offset ≤ (h.nodes id).offset + newSize := le_add_right _ _
  obtain ⟨lists, hs⟩ := hw.shape
  obtain ⟨h₂, hsplit, hsame, hs₂⟩ := hs.splitOff
    (fun y hy => lt_of_lt_of_le (hw.old_lt (mid_mem (hw.parked_old y hy))) hw.fresh) hid
    (fun y hy => hall y (mem_cons_of_mem _ hy)) newSize hmin (by omega) (by
      intro y hy hyp hyu
      rw [hoffset]
      refine hw.offset_ne (fun z hz hzp => absurd (hall z hz) hzp)
        (hw.around_offset hlow (by omega)) y ?_ hyp hyu
      simp only [mem_append, mem_cons] at hy ⊢
      tauto)
  obtain ⟨hold, hnew⟩ := hsame.splitOff
  rw [hoffset, hsize] at hnew
  refine ⟨h₂, hsplit, hw.step hs₂ hsame.base (by rw [hsame.diagnostics]; rfl) ?_ hw.parked_old ?_ ?_,
    hold, hnew, ?_, hsame.diagnostics⟩
  · rw [hsame.fresh]
    exact le_succ _
  · intro y hy
    have hblock := congrArg Block.offset (hold y hy)
    rwa [blockOf_setSize] at hblock
  · intro y hy hyold
    rw [hold y hy, blockOf_setSize, if_neg fun heq : y = id => hyold (heq ▸ mem_cons_self)]
  · rw [hsame.hashes]
    exact congrArg (fun o => h₁.hashes.insert o h₁.fresh) hoffset

theorem absorb (hw : Work h front (id :: rest) back h₁ (id :: rest) parked)
    (hall : ∀ y ∈ id :: rest, y ∈ parked) (size : Nat) :
    Work h front (id :: rest) back (h₁.absorb id size back.head?) [id] parked := by
  have hw' := hw.setSize (hall id mem_cons_self) size
  obtain ⟨lists, hs⟩ := hw'.shape
  refine hw'.step ⟨lists, hs.linkNext fun y hy => hall y (mem_cons_of_mem _ hy)⟩ rfl rfl
    (le_refl _) hw.parked_old ?_ ?_
  · intro y _
    rw [O1Heap.absorb, nodes_linkNext]
  · intro y _ _
    rw [O1Heap.absorb, blockOf_linkNext]

theorem finish (hw : Work h front (id :: rest) back h₁ mid parked)
    (hdone : ∀ y ∈ parked, y ∈ mid ∧ (h₁.nodes y).used = true ∧
      h₁.hashes.get (h₁.nodes y).offset = some y ∨ y ∉ mid ∧ (h₁.nodes y).used = false)
    (hrow : h₁.row mid = bs)
    (hlayout : Layout h.diagnostics.capacity (h.row front ++ bs ++ h.row back))
    (hallocated : h₁.diagnostics.allocated + usedTotal (h.row (id :: rest)) =
      h.diagnostics.allocated + usedTotal bs) : Becomes h h₁ (h.row front ++ bs ++ h.row back) := by
  obtain ⟨lists, hs⟩ := hw.shape
  have hrows : h₁.row (front ++ mid ++ back) = h.row front ++ bs ++ h.row back := by
    rw [row_append, row_append, hrow, row_congr fun y hy => hw.around y (mem_append_left back hy),
      row_congr fun y hy => hw.around y (mem_append_right front hy)]
  have hs' : Shape h₁ (front ++ mid ++ back) lists ∅ := by
    refine hs.settle fun y hy => ?_
    refine (hdone y hy).imp (fun h => ⟨mid_mem h.1, h.2⟩) fun h => ⟨fun hmem => ?_, h.2⟩
    refine hw.around_not_old (x := y) ?_ (hw.parked_old y hy)
    simp only [mem_append] at hmem ⊢
    tauto
  have htotal := hw.rep.allocated
  rw [row_append, row_append, usedTotal_append, usedTotal_append] at htotal
  refine ⟨hw.base, hw.capacity, _, ⟨⟨lists, hs'⟩, ?_, ?_, ?_⟩, hrows⟩
  · rw [hrows, hw.capacity]
    exact hlayout
  · rw [hrows, usedTotal_append, usedTotal_append]
    omega
  · rw [hw.capacity]
    exact hw.rep.small

end Work

end Mwemu.O1Heap
