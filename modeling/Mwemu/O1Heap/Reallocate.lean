import Mwemu.O1Heap.Allocate
import Mwemu.O1Heap.Free

/-!
# Reallocation

A used block is resized in place together with free neighbours: it gives its tail to the free block
after it, or takes that block, or begins at the free block before it. In each of these cases a part of
the row becomes one used block and a free rest, and a rest that is too small stays with the used
block. Otherwise a new block is allocated and the old one released.
-/

namespace Mwemu.O1Heap

open Mwemu.Lib List Option Nat

/-! ### Resizing a part of the row -/

def resizedBlocks (offset size total : Nat) : List Block :=
  if size + 256 ≤ total then [⟨offset, size, true⟩, ⟨offset + size, total - size, false⟩]
  else [⟨offset, total, true⟩]

theorem usedTotal_resizedBlocks {offset size total : Nat} :
    usedTotal (resizedBlocks offset size total) = if size + 256 ≤ total then size else total := by
  rw [resizedBlocks]
  split_ifs <;> rfl

/-- The fragment keeps the size and gives back the rest, or keeps it all. -/
def resizeTo (h : O1Heap) (id offset size total : Nat) (after : Option Nat) : Option O1Heap :=
  if size + 256 ≤ total then h.splitOff id size (offset + size) (total - size) after
  else some (h.absorb id total after)

/-- The block `b` and free neighbours, of which `c` is the first and `total` the sum of the sizes,
become one used block and a rest. -/
def Resized (bs : List Block) (b : Block) (size : Nat) (c : Block) (total : Nat)
    (bs' : List Block) : Prop :=
  ∃ l rest r, bs = l ++ c :: rest ++ r ∧ b ∈ c :: rest ∧
    (∀ d ∈ c :: rest, d ≠ b → d.used = false) ∧ Layout.total (c :: rest) = total ∧ size ≤ total ∧
    bs' = l ++ resizedBlocks c.offset size total ++ r

variable {size : Nat}

theorem Layout.resize {cap : Nat} {l rest r : List Block} {c : Block}
    (h : Layout cap (l ++ c :: rest ++ r)) (hmin : 256 ≤ size) (hmod : size % 256 = 0)
    (hle : size ≤ Layout.total (c :: rest)) (hright : ∀ d ∈ r.head?, d.used = true) :
    Layout cap (l ++ resizedBlocks c.offset size (Layout.total (c :: rest)) ++ r) := by
  rw [resizedBlocks]
  split_ifs with hsplit
  · exact h.edit_split (Nat.add_sub_cancel' hle) hmin hmod (by omega) hright
  · exact h.edit_used (by omega) (le_refl _) (by omega) (.inl rfl)

variable {h : O1Heap} {id : Nat}

theorem resized_part {front rest back : List Nat} {first : Nat} (hid : id ∈ first :: rest)
    (hfree : ∀ y ∈ first :: rest, y ≠ id → (h.nodes y).used = false)
    (hle : size ≤ Layout.total (h.row (first :: rest))) :
    Resized (h.row (front ++ first :: rest ++ back)) (h.blockOf id) size (h.blockOf first)
      (Layout.total (h.row (first :: rest)))
      (h.row front ++ resizedBlocks (h.nodes first).offset size
        (Layout.total (h.row (first :: rest))) ++ h.row back) := by
  refine ⟨h.row front, h.row rest, h.row back, ?_, mem_map_of_mem hid, ?_, rfl, hle, rfl⟩
  · rw [row_append, row_append, row_cons]
  · intro d hd hne
    rw [← row_cons] at hd
    obtain ⟨y, hy, rfl⟩ := mem_map.mp hd
    exact hfree y hy fun heq => hne (by rw [heq])

theorem Rep.resize_layout {front rest back : List Nat} {first : Nat}
    (hr : Rep h (front ++ first :: rest ++ back)) (hmin : 256 ≤ size) (hmod : size % 256 = 0)
    (hle : size ≤ Layout.total (h.row (first :: rest)))
    (hright : ∀ c ∈ (h.row back).head?, c.used = true) :
    Layout h.diagnostics.capacity (h.row front ++ resizedBlocks (h.nodes first).offset size
      (Layout.total (h.row (first :: rest))) ++ h.row back) := by
  have hlayout := hr.layout
  rw [row_append, row_append, row_cons] at hlayout
  exact hlayout.resize hmin hmod hle hright

section Discard

variable {h h₁ : O1Heap} {front old back mid : List Nat} {parked : Set Nat} {x : Nat}

theorem Work.discard (hw : Work h front old back h₁ mid parked) (hx : x ∈ parked)
    (hmid : ∀ y ∈ mid, y ∉ parked → (h₁.nodes y).used = false) :
    Work h front old back (h₁.discard x) mid parked := by
  have hw' := hw.setSize hx 0
  have hold := hw.parked_old x hx
  have hdiscard : h₁.discard x =
      { h₁.setSize x 0 with hashes := h₁.hashes.remove (h.nodes x).offset } := by
    rw [← hw'.offset x (hw.old_lt (Work.mid_mem hold))]
    rfl
  rw [hdiscard]
  refine hw'.removeEntry (fun y hy hyp => ?_) hold
  rw [nodes_setSize]
  exact hmid y hy hyp

theorem Work.retire (hw : Work h front old back h₁ mid parked) (hx : x ∈ old) (hmid : x ∈ mid)
    (hfree : ∀ y ∈ mid, y ∉ parked → (h₁.nodes y).used = false) (hpark : x ∉ parked)
    (hsize : 256 ≤ (h₁.nodes x).size) :
    ∃ h₂, h₁.retire x = some h₂ ∧ Work h front old back h₂ mid (insert x parked) ∧
      (∀ y, (h₂.nodes y).used = (h₁.nodes y).used) ∧
      h₂.hashes = h₁.hashes.remove (h.nodes x).offset ∧ h₂.diagnostics = h₁.diagnostics := by
  obtain ⟨h₂, hunbin, hsame, hw₂⟩ := hw.unbin hx hmid hpark (hfree x hmid hpark) hsize
  refine ⟨h₂.discard x, by rw [O1Heap.retire, hunbin]; rfl, hw₂.discard (Set.mem_insert _ _) ?_, ?_, ?_,
    hsame.diagnostics⟩
  · intro y hy hyp
    rw [hsame.used]
    exact hfree y hy fun h => hyp (Set.mem_insert_of_mem _ h)
  · intro y
    exact (congrArg Fragment.used (nodes_setSize h₂ x y 0)).trans (hsame.used y)
  · rw [O1Heap.discard, nodes_setSize, hw₂.offset x (hw.old_lt (Work.mid_mem hx)), ← hsame.hashes]
    rfl

end Discard

section Part

variable {h h₁ : O1Heap} {front rest back : List Nat} {id size : Nat} {parked : Set Nat}

theorem Work.ne_first (hw : Work h front (id :: rest) back h₁ (id :: rest) parked) {y : Nat}
    (hy : y ∈ rest) : y ≠ id := by
  rintro rfl
  exact (nodup_cons.mp hw.mid_nodup).1 hy

theorem Work.offset_first (hw : Work h front (id :: rest) back h₁ (id :: rest) parked) :
    (h₁.nodes id).offset = (h.nodes id).offset :=
  hw.offset id (hw.old_lt (Work.mid_mem mem_cons_self))

/-- What is left of a part of the row whose first fragment has been given the size. -/
structure Cut (h : O1Heap) (front : List Nat) (id : Nat) (rest back : List Nat) (h₁ : O1Heap)
    (size : Nat) (h₂ : O1Heap) (mid : List Nat) (parked : Set Nat) : Prop where
  work : Work h front (id :: rest) back h₂ mid parked
  first : id ∈ mid
  row : h₂.row mid =
    resizedBlocks (h.nodes id).offset size (Layout.total (h.row (id :: rest)))
  used : ∀ y ∈ id :: rest, (h₂.nodes y).used = (h₁.nodes y).used
  unused : ∀ y ∈ mid, y ∉ parked → (h₂.nodes y).used = false
  gone : ∀ y ∈ rest, y ∉ mid
  indexed : h₂.hashes.get (h.nodes id).offset = h₁.hashes.get (h.nodes id).offset
  diagnostics : h₂.diagnostics = h₁.diagnostics

theorem Work.resizeTo (hw : Work h front (id :: rest) back h₁ (id :: rest) parked)
    (hall : ∀ y ∈ id :: rest, y ∈ parked) (hused : (h₁.nodes id).used = true) (hmin : 256 ≤ size) :
    ∃ h₂ mid, h₁.resizeTo id (h.nodes id).offset size (Layout.total (h.row (id :: rest)))
        back.head? = some h₂ ∧ Cut h front id rest back h₁ size h₂ mid parked := by
  obtain ⟨-, -, -, hlt⟩ := hw.rep.spans
  have hid := hall id mem_cons_self
  rw [O1Heap.resizeTo]
  by_cases hsplit : size + 256 ≤ Layout.total (h.row (id :: rest))
  · rw [if_pos hsplit]
    obtain ⟨h₂, hcut, hw₂, hold, hnew, hhashes, hdiagnostics⟩ := hw.splitOff hall
      (Nat.add_sub_cancel' (show size ≤ _ by omega)) (by omega)
    have hmade : ∀ y ∈ id :: rest, y < h₁.fresh := fun y hy =>
      lt_of_lt_of_le (hw.old_lt (Work.mid_mem hy)) hw.fresh
    have hblock : h₂.blockOf id = ⟨(h.nodes id).offset, size, true⟩ := by
      rw [hold id (hmade id mem_cons_self), blockOf_setSize, if_pos rfl,
        Nat.mod_eq_of_lt (by omega), blockOf, hw.offset_first, hused]
    refine ⟨h₂, _, hcut, hw₂, mem_cons_self, ?_, ?_, ?_, ?_, ?_, hdiagnostics⟩
    · rw [row_cons, row_cons, hblock, hnew, resizedBlocks, if_pos hsplit]
      rfl
    · intro y hy
      have hblock := congrArg Block.used (hold y (hmade y hy))
      rwa [blockOf_setSize] at hblock
    · intro y hy hyp
      rcases mem_cons.mp hy with rfl | hy
      · exact absurd hid hyp
      · rw [mem_singleton.mp hy]
        exact congrArg Block.used hnew
    · intro y hy
      simp only [mem_cons, not_mem_nil, or_false, not_or]
      exact ⟨hw.ne_first hy, Nat.ne_of_lt (hmade y (mem_cons_of_mem _ hy))⟩
    · rw [hhashes, OrdMap.get_insert_of_ne (by omega)]
  · rw [if_neg hsplit]
    refine ⟨_, [id], rfl, hw.absorb hall _, mem_cons_self, ?_, ?_, ?_,
      fun y hy hy' => hw.ne_first hy (mem_singleton.mp hy'), rfl, rfl⟩
    · rw [row_cons, O1Heap.absorb, blockOf_linkNext, blockOf_setSize, if_pos rfl,
        mod_eq_of_lt (by omega), blockOf, hw.offset_first, hused, resizedBlocks, if_neg hsplit]
      rfl
    · intro y _
      rw [O1Heap.absorb, nodes_linkNext, nodes_setSize]
    · rintro y (- | ⟨-, ⟨⟩⟩) hyp
      exact absurd hid hyp

end Part

/-! ### Resizing where the block begins -/

/-- The work on a used fragment, while those after it have been retired. -/
structure Extends (h : O1Heap) (front : List Nat) (id : Nat) (rest back : List Nat) (h₁ : O1Heap)
    (parked : Set Nat) : Prop where
  work : Work h front (id :: rest) back h₁ (id :: rest) parked
  parked_mem : ∀ y ∈ id :: rest, y ∈ parked
  used : (h₁.nodes id).used = true
  unused : ∀ y ∈ rest, (h₁.nodes y).used = false
  indexed : h₁.hashes.get (h.nodes id).offset = some id
  total : usedTotal (h.row (id :: rest)) = (h.nodes id).size
  right : ∀ c ∈ (h.row back).head?, c.used = true

namespace Extends

variable {h h₁ : O1Heap} {front rest back : List Nat} {id size : Nat} {parked : Set Nat}

theorem resizeTo (he : Extends h front id rest back h₁ parked) (hmin : 256 ≤ size)
    (hmod : size % 256 = 0) (hle : size ≤ Layout.total (h.row (id :: rest))) :
    ∃ h₂, h₁.resizeTo id (h.nodes id).offset size (Layout.total (h.row (id :: rest)))
        back.head? = some h₂ ∧ h₂.diagnostics = h₁.diagnostics ∧
      ∀ d : Diagnostics, d.capacity = h₁.diagnostics.capacity →
        d.allocated + (h.nodes id).size = h.diagnostics.allocated + usedTotal
          (resizedBlocks (h.nodes id).offset size (Layout.total (h.row (id :: rest)))) →
        Becomes h { h₂ with diagnostics := d } (h.row front ++
          resizedBlocks (h.nodes id).offset size (Layout.total (h.row (id :: rest))) ++
          h.row back) := by
  obtain ⟨h₂, mid, hcut, hc⟩ := he.work.resizeTo he.parked_mem he.used hmin
  refine ⟨h₂, hcut, hc.diagnostics, fun d hd hallocated => ?_⟩
  refine (hc.work.setDiagnostics (hd.trans (by rw [hc.diagnostics]))).finish ?_ hc.row
    (he.work.rep.resize_layout hmin hmod hle he.right) (by rw [he.total]; exact hallocated)
  intro y hy
  have hold := hc.work.parked_old y hy
  rcases mem_cons.mp hold with rfl | hrest
  · refine .inl ⟨hc.first, (hc.used y hold).trans he.used, ?_⟩
    change h₂.hashes.get (h₂.nodes y).offset = some y
    rw [hc.work.offset y (hc.work.old_lt (Work.mid_mem hold)), hc.indexed]
    exact he.indexed
  · exact .inr ⟨hc.gone y hrest, (hc.used y hold).trans (he.unused y hrest)⟩

end Extends

section Forward

variable {h : O1Heap} {front back : List Nat} {id size address : Nat} {next : Option Nat}

theorem Rep.extends (hr : Rep h (front ++ id :: next.toList ++ back))
    (hused : (h.nodes id).used = true) (hnext : ∀ y ∈ next, (h.nodes y).used = false)
    (hright : ∀ c ∈ (h.row back).head?, c.used = true) {d : Diagnostics}
    (hd : d.capacity = h.diagnostics.capacity) :
    ∃ h₁ parked, next.elim (some { h with diagnostics := d }) { h with diagnostics := d }.retire =
        some h₁ ∧ h₁.diagnostics = d ∧ Extends h front id next.toList back h₁ parked := by
  have htotal : usedTotal (h.row (id :: next.toList)) = (h.nodes id).size := by
    rw [row_cons, usedTotal_cons, if_pos (show (h.blockOf id).used = true from hused),
      usedTotal_of_free fun y hy => hnext y (mem_toList.mp hy), Nat.add_zero]
    rfl
  have hindexed := (hr.indexed_iff.mpr ⟨by simp, hused, rfl⟩).1
  have hw := (hr.work.park mem_cons_self hused).setDiagnostics hd
  rw [insert_empty_eq] at hw
  cases next with
  | none => exact ⟨_, {id}, rfl, rfl, hw, by simp, hused, nofun, hindexed, htotal, hright⟩
  | some n =>
    have hn : n ∈ id :: (some n).toList := by simp
    have hfree := hnext n rfl
    have hne : id ≠ n := by
      rintro rfl
      rw [hused] at hfree
      cases hfree
    obtain ⟨h₁, hretire, hw₁, hkept, hhashes, hdiagnostics⟩ := hw.retire hn hn
      (fun y hy hyp => hnext y (by simpa [show y ≠ id from hyp, eq_comm] using hy)) (Ne.symm hne)
      (hr.min_size (Work.mid_mem hn))
    have hoffset : (h.nodes id).offset ≠ (h.nodes n).offset := fun heq =>
      hne (hr.eq_of_offset (by simp) (by simp) heq)
    refine ⟨h₁, {n, id}, hretire, hdiagnostics, hw₁, by simp, ?_, ?_, ?_, htotal, hright⟩
    · rw [hkept, hused]
    · intro y hy
      rw [mem_singleton.mp hy, hkept, hfree]
    · rw [hhashes, OrdMap.get_remove_of_ne hoffset]
      exact hindexed

theorem Rep.freeNext_split (hr : Rep h (front ++ id :: back)) :
    ∃ (next : Option Nat) (back' : List Nat), back = next.toList ++ back' ∧
      h.freeNext id = next ∧ (∀ y ∈ next, (h.nodes y).used = false) ∧
      ∀ c ∈ (h.row back').head?, c.used = true := by
  obtain ⟨lists, hs⟩ := hr.shape
  rw [hs.freeNext]
  rcases exists_right h back with ⟨hnone, hright⟩ | ⟨next, back', rfl, hfree, hsome⟩
  · exact ⟨none, back, rfl, hnone, nofun, hright⟩
  · have hlayout := hr.layout
    rw [append_cons, row_append] at hlayout
    exact ⟨some next, back', rfl, hsome, by simpa using hfree, hlayout.right_used hfree⟩

theorem Rep.after_eq (hr : Rep h (front ++ id :: next.toList ++ back)) :
    (next.elim (h.nodes id).next fun i => (h.nodes i).next) = back.head? := by
  cases next with
  | none => exact hr.work.next_eq [] rfl
  | some n => exact hr.work.next_eq [id] rfl

theorem total_next : Layout.total (h.row (id :: next.toList)) = (h.nodes id).size + h.sizeOf next := by
  cases next <;> rfl

theorem Rep.size_le_allocated {ids : List Nat} (hr : Rep h ids) (hid : id ∈ ids)
    (hused : (h.nodes id).used = true) : (h.nodes id).size ≤ h.diagnostics.allocated := by
  rw [hr.allocated]
  exact usedTotal_le_of_mem (b := h.blockOf id) (mem_map_of_mem hid) hused

theorem Rep.shrink_same (hr : Rep h (front ++ id :: back)) (hused : (h.nodes id).used = true)
    (hsize : size = (h.nodes id).size) (address : Nat) :
    ∃ h' bs', h.shrink address id size = some (some ⟨address, 0⟩, h') ∧ Becomes h h' bs' ∧
      Resized (h.row (front ++ id :: back)) (h.blockOf id) size (h.blockOf id) size bs' := by
  have hsmall : (h.nodes id).size - size < fragmentSizeMin := by
    rw [hsize, Nat.sub_self]
    decide
  refine ⟨h, h.row (front ++ id :: back), if_pos hsmall, ⟨rfl, rfl, _, hr, rfl⟩, ?_⟩
  have hpart : Resized (h.row (front ++ [id] ++ back)) (h.blockOf id) size (h.blockOf id) _ _ :=
    resized_part (mem_singleton_self id)
      (fun y hy hne => absurd (mem_singleton.mp hy) hne) (le_of_eq hsize)
  have htotal : Layout.total (h.row [id]) = (h.nodes id).size := Nat.add_zero _
  have hsame : resizedBlocks (h.nodes id).offset size (Layout.total (h.row [id])) = h.row [id] := by
    rw [resizedBlocks, if_neg (by rw [htotal, hsize]; omega), row_cons, blockOf, hused]
    rfl
  rw [hsame, ← row_append, ← row_append, ← append_cons, htotal, ← hsize] at hpart
  exact hpart

theorem Rep.shrink (hr : Rep h (front ++ id :: back)) (hused : (h.nodes id).used = true)
    (hvalid : (h.nodes id).size % 256 = 0) (haddress : address - h.base = (h.nodes id).offset)
    (hmin : 256 ≤ size) (hmod : size % 256 = 0) (hle : size ≤ (h.nodes id).size) :
    ∃ h' total bs', h.shrink address id size = some (some ⟨address, 0⟩, h') ∧ Becomes h h' bs' ∧
      Resized (h.row (front ++ id :: back)) (h.blockOf id) size (h.blockOf id) total bs' ∧
      (total = size ∨ size + 256 ≤ total) := by
  by_cases hsize : size = (h.nodes id).size
  · obtain ⟨h', bs', hcall, hbecomes, hresized⟩ := hr.shrink_same hused hsize address
    exact ⟨h', size, bs', hcall, hbecomes, hresized, .inl rfl⟩
  have hallocated := hr.size_le_allocated (by simp) hused
  have hlarge : ¬ (h.nodes id).size - size < fragmentSizeMin := by
    rw [fragmentSizeMin]
    omega
  obtain ⟨next, back, rfl, hnext, hfree, hright⟩ := hr.freeNext_split
  rw [← cons_append, ← append_assoc] at hr ⊢
  obtain ⟨h₁, parked, hretire, hdiagnostics₁, he⟩ := hr.extends hused hfree hright
    (d := (h.subAllocated ((h.nodes id).size - size)).diagnostics) rfl
  have hsplit : size + 256 ≤ Layout.total (h.row (id :: next.toList)) := by
    rw [total_next]
    rw [fragmentSizeMin] at hlarge
    omega
  obtain ⟨h₂, hcut, hdiagnostics, hbecomes⟩ := he.resizeTo hmin hmod (by omega)
  rw [resizeTo, if_pos hsplit, total_next, ← haddress, ← hr.after_eq] at hcut
  refine ⟨h₂, _, _, ?_, hbecomes h₂.diagnostics (by rw [hdiagnostics]) ?_,
    resized_part mem_cons_self (fun y hy hne => hfree y (by simpa [hne] using hy)) (by omega),
    .inr hsplit⟩
  · subst hnext
    rw [Nat.sub_add_comm hle] at hcut
    rw [O1Heap.shrink, if_neg hlarge, if_neg (by omega)]
    exact bind_eq_some_iff.mpr ⟨h₁, hretire, bind_eq_some_iff.mpr ⟨h₂, hcut, rfl⟩⟩
  · rw [hdiagnostics, hdiagnostics₁, usedTotal_resizedBlocks, if_pos hsplit]
    change h.diagnostics.allocated - ((h.nodes id).size - size) + (h.nodes id).size = _
    omega

theorem Rep.growForward {next : Nat} (hr : Rep h (front ++ id :: (some next).toList ++ back))
    (hused : (h.nodes id).used = true) (hfree : ∀ y ∈ some next, (h.nodes y).used = false)
    (hright : ∀ c ∈ (h.row back).head?, c.used = true)
    (haddress : address - h.base = (h.nodes id).offset) (hmin : 256 ≤ size) (hmod : size % 256 = 0)
    (hgrow : (h.nodes id).size < size) (hle : size ≤ (h.nodes id).size + (h.nodes next).size) :
    ∃ h' bs', h.growForward address id next size = some (some ⟨address, 0⟩, h') ∧ Becomes h h' bs' ∧
      Resized (h.row (front ++ id :: (some next).toList ++ back)) (h.blockOf id) size
        (h.blockOf id) ((h.nodes id).size + (h.nodes next).size) bs' := by
  obtain ⟨h₁, parked, hretire, hdiagnostics₁, he⟩ := hr.extends hused hfree hright
    (d := h.diagnostics) rfl
  have htotal : Layout.total (h.row (id :: (some next).toList)) =
    (h.nodes id).size + (h.nodes next).size := rfl
  obtain ⟨h₂, hcut, hdiagnostics, hbecomes⟩ := he.resizeTo hmin hmod hle
  rw [resizeTo, htotal, ← haddress, ← hr.after_eq] at hcut
  rw [usedTotal_resizedBlocks, htotal] at hbecomes
  refine ⟨h₂.addAllocated ((if size + 256 ≤ (h.nodes id).size + (h.nodes next).size then size
    else (h.nodes id).size + (h.nodes next).size) - (h.nodes id).size), _, ?_, hbecomes _ ?_ ?_,
    resized_part mem_cons_self (fun y hy hne => hfree y (by simpa [hne, eq_comm] using hy)) hle⟩
  · refine bind_eq_some_iff.mpr ⟨h₁, hretire, ?_⟩
    by_cases hsplit : size + 256 ≤ (h.nodes id).size + (h.nodes next).size
    · rw [if_pos hsplit] at hcut ⊢
      rw [if_pos (show fragmentSizeMin ≤ _ by rw [fragmentSizeMin]; omega)]
      exact bind_eq_some_iff.mpr ⟨h₂, hcut, rfl⟩
    · rw [if_neg hsplit] at hcut ⊢
      rw [if_neg (show ¬ fragmentSizeMin ≤ _ by rw [fragmentSizeMin]; omega),
        Nat.add_sub_cancel_left, ← Option.some.inj hcut]
      rfl
  · rw [← hdiagnostics]
  · change h₂.diagnostics.allocated + (_ - (h.nodes id).size) + (h.nodes id).size = _
    rw [hdiagnostics, hdiagnostics₁]
    split_ifs <;> omega

end Forward

/-! ### Resizing from the block before -/

section Backward

variable {h h₁ : O1Heap} {front back mid : List Nat} {prev id size address : Nat} {next : Option Nat}
  {parked : Set Nat}

theorem nodes_settleBackward (prevOffset offset i : Nat) :
    (h.settleBackward prev id next prevOffset offset).nodes i = { h.nodes i with
        size := if i ∈ id :: next.toList then 0 else (h.nodes i).size
        used := if i = id then false else (h.nodes i).used } := by
  cases next with
  | none =>
    change ((h.setUsed id false).setSize id 0).nodes i = _
    rw [nodes_setSize, nodes_setUsed]
    simp
  | some n =>
    change (({ (h.setUsed id false).setSize id 0 with hashes := _ } : O1Heap).setSize n 0).nodes i = _
    rw [nodes_setSize]
    change ({ ((h.setUsed id false).setSize id 0).nodes i with size := _ } : Fragment) = _
    rw [nodes_setSize, nodes_setUsed]
    by_cases hid : i = id <;> by_cases hn : i = n <;> simp [hid, hn]

theorem blockOf_settleBackward {prevOffset offset i : Nat} (hi : i ∉ id :: next.toList) :
    (h.settleBackward prev id next prevOffset offset).blockOf i = h.blockOf i := by
  have hid : i ≠ id := fun heq => hi (heq ▸ mem_cons_self)
  rw [blockOf, nodes_settleBackward, if_neg hi, if_neg hid]
  rfl

theorem diagnostics_settleBackward (prevOffset offset : Nat) :
    (h.settleBackward prev id next prevOffset offset).diagnostics = h.diagnostics := by
  cases next <;> rfl

theorem Work.settleBackward (hw : Work h front (prev :: id :: next.toList) back h₁ mid parked)
    (hall : ∀ y ∈ prev :: id :: next.toList, y ∈ parked) (hprev : prev ∈ mid)
    (hgone : ∀ y ∈ id :: next.toList, y ∉ mid)
    (hmid : ∀ y ∈ mid, y ∉ parked → (h₁.nodes y).used = false)
    (hused : (h₁.nodes prev).used = true) (hfree : ∀ y ∈ next, (h₁.nodes y).used = false)
    {bs : List Block} (hrow : h₁.row mid = bs)
    (hlayout : Layout h.diagnostics.capacity (h.row front ++ bs ++ h.row back))
    (hallocated : h₁.diagnostics.allocated + usedTotal (h.row (prev :: id :: next.toList)) =
      h.diagnostics.allocated + usedTotal bs) :
    Becomes h (h₁.settleBackward prev id next (h.nodes prev).offset (h.nodes id).offset)
      (h.row front ++ bs ++ h.row back) := by
  have hw' : Work h front (prev :: id :: next.toList) back
      (h₁.settleBackward prev id next (h.nodes prev).offset (h.nodes id).offset) mid parked := by
    have hid : id ∈ parked := hall id (by simp)
    set h₂ : O1Heap := { (h₁.setUsed id false).setSize id 0 with
      hashes := h₁.hashes.remove (h.nodes id).offset } with hh₂
    have hunused : ∀ y ∈ mid, y ∉ parked → (h₂.nodes y).used = false := by
      intro y hy hyp
      change (((h₁.setUsed id false).setSize id 0).nodes y).used = false
      rw [nodes_setSize, nodes_setUsed]
      exact ite_eq_left_iff.mpr fun _ => hmid y hy hyp
    have hw₂ : Work h front (prev :: id :: next.toList) back h₂ mid parked :=
      ((hw.setUsed hid false).setSize hid 0).removeEntry hunused (by simp)
    cases next with
    | none => exact hw₂.insertEntry hunused mem_cons_self hprev
    | some n =>
      have hw₃ := hw₂.discard (hall n (by simp)) hunused
      refine hw₃.insertEntry (fun y hy hyp => ?_) mem_cons_self hprev
      exact (congrArg Fragment.used (nodes_setSize h₂ n y 0)).trans (hunused y hy hyp)
  have hne : prev ≠ id := fun heq => hgone id mem_cons_self (heq ▸ hprev)
  refine hw'.finish ?_ ?_ hlayout ?_
  · intro y hy
    rw [nodes_settleBackward]
    rcases mem_cons.mp (hw.parked_old y hy) with rfl | hrest
    · refine .inl ⟨hprev, (if_neg hne).trans hused, ?_⟩
      change (OrdMap.insert _ (h.nodes y).offset y).get (h₁.nodes y).offset = some y
      rw [hw.offset y (hw.old_lt (Work.mid_mem mem_cons_self))]
      exact OrdMap.get_insert_self _ _
    · refine .inr ⟨hgone y hrest, ?_⟩
      refine ite_eq_left_iff.mpr fun hyid => hfree y ?_
      simpa [hyid] using hrest
  · rw [← hrow]
    exact row_congr fun y hy => blockOf_settleBackward fun hgone' => hgone y hgone' hy
  · rw [diagnostics_settleBackward]
    exact hallocated

end Backward

/-- The work on a free fragment that is used from now on, with a used one and a free one after it. -/
structure Backs (h : O1Heap) (front : List Nat) (prev id : Nat) (next : Option Nat) (back : List Nat)
    (h₁ : O1Heap) (parked : Set Nat) : Prop where
  work : Work h front (prev :: id :: next.toList) back h₁ (prev :: id :: next.toList) parked
  parked_mem : ∀ y ∈ prev :: id :: next.toList, y ∈ parked
  used : (h₁.nodes prev).used = true
  unused : ∀ y ∈ next, (h₁.nodes y).used = false
  total : usedTotal (h.row (prev :: id :: next.toList)) = (h.nodes id).size
  right : ∀ c ∈ (h.row back).head?, c.used = true

namespace Backs

variable {h h₁ : O1Heap} {front back : List Nat} {prev id size : Nat} {next : Option Nat}
  {parked : Set Nat}

theorem resizeTo (hb : Backs h front prev id next back h₁ parked) (hmin : 256 ≤ size)
    (hmod : size % 256 = 0) (hle : size ≤ Layout.total (h.row (prev :: id :: next.toList))) :
    ∃ h₂, h₁.resizeTo prev (h.nodes prev).offset size
        (Layout.total (h.row (prev :: id :: next.toList))) back.head? = some h₂ ∧
      h₂.diagnostics = h₁.diagnostics ∧ ∀ d : Diagnostics, d.capacity = h₁.diagnostics.capacity →
        d.allocated + (h.nodes id).size = h.diagnostics.allocated + usedTotal (resizedBlocks
          (h.nodes prev).offset size (Layout.total (h.row (prev :: id :: next.toList)))) →
        Becomes h ({ h₂ with diagnostics := d }.settleBackward prev id next (h.nodes prev).offset
            (h.nodes id).offset)
          (h.row front ++ resizedBlocks (h.nodes prev).offset size
            (Layout.total (h.row (prev :: id :: next.toList))) ++ h.row back) := by
  obtain ⟨h₂, mid, hcut, hc⟩ := hb.work.resizeTo hb.parked_mem hb.used hmin
  refine ⟨h₂, hcut, hc.diagnostics, fun d hd hallocated => ?_⟩
  refine (hc.work.setDiagnostics (hd.trans (by rw [hc.diagnostics]))).settleBackward hb.parked_mem
    hc.first hc.gone hc.unused ((hc.used prev mem_cons_self).trans hb.used) (fun y hy => ?_)
    hc.row (hb.work.rep.resize_layout hmin hmod hle hb.right) (by rw [hb.total]; exact hallocated)
  exact (hc.used y (by simp [mem_def.mp hy])).trans (hb.unused y hy)

end Backs

section Backward

variable {h : O1Heap} {front back : List Nat} {prev id size address : Nat} {next : Option Nat}

theorem Rep.backs (hr : Rep h (front ++ prev :: id :: next.toList ++ back))
    (hprev : (h.nodes prev).used = false) (hused : (h.nodes id).used = true)
    (hnext : ∀ y ∈ next, (h.nodes y).used = false)
    (hright : ∀ c ∈ (h.row back).head?, c.used = true) :
    ∃ h₁ h₂ parked, h.unbin prev = some h₁ ∧ next.elim (some h₁) h₁.unbin = some h₂ ∧
      h₂.diagnostics = h.diagnostics ∧
      Backs h front prev id next back (h₂.setUsed prev true) parked := by
  have hmem : prev ∈ prev :: id :: next.toList := mem_cons_self
  have hidMem : id ∈ prev :: id :: next.toList := by simp
  have hmin := fun y (hy : y ∈ prev :: id :: next.toList) => hr.min_size (Work.mid_mem hy)
  have hnodup := hr.work.mid_nodup
  have hne : prev ≠ id := fun heq => (nodup_cons.mp hnodup).1 (heq ▸ mem_cons_self)
  have htotal : usedTotal (h.row (prev :: id :: next.toList)) = (h.nodes id).size := by
    rw [row_cons, row_cons, usedTotal_cons, usedTotal_cons,
      if_pos (show (h.blockOf id).used = true from hused),
      if_neg (show ¬ (h.blockOf prev).used = true by rw [blockOf, hprev]; exact Bool.false_ne_true),
      usedTotal_of_free fun y hy => hnext y (mem_toList.mp hy), Nat.zero_add, Nat.add_zero]
    rfl
  have hw := hr.work.park hidMem hused
  rw [insert_empty_eq] at hw
  obtain ⟨h₁, hunbin, hsame, hw₁⟩ := hw.unbin hmem hmem hne hprev (hmin prev hmem)
  obtain ⟨h₂, parked, hunbin', hsame', hall, hw₂⟩ : ∃ h₂ parked,
      next.elim (some h₁) h₁.unbin = some h₂ ∧ SameCore h h₂ ∧
      (∀ y ∈ prev :: id :: next.toList, y ∈ parked) ∧
      Work h front (prev :: id :: next.toList) back h₂ (prev :: id :: next.toList) parked := by
    cases next with
    | none => exact ⟨h₁, {prev, id}, rfl, hsame, by simp, hw₁⟩
    | some n =>
      have hn : n ∈ [prev, id, n] := by simp
      have hnot : n ∉ ({prev, id} : Set Nat) := by
        simp only [toList_some, nodup_cons, mem_cons, not_mem_nil] at hnodup
        simp only [Set.mem_insert_iff, Set.mem_singleton_iff]
        tauto
      obtain ⟨h₂, hunbin', hsame', hw₂⟩ := hw₁.unbin hn hn hnot
        (by rw [hsame.used]; exact hnext n rfl) (by rw [hsame.size]; exact hmin n hn)
      exact ⟨h₂, {n, prev, id}, hunbin', hsame.trans hsame', by simp, hw₂⟩
  refine ⟨h₁, h₂, parked, hunbin, hunbin', hsame'.diagnostics, hw₂.setUsed (hall prev hmem) true, hall,
    ?_, ?_, htotal, hright⟩
  · rw [nodes_setUsed]
    exact if_pos rfl
  intro y hy
  have hy' : y ≠ prev := by
    rintro rfl
    exact (nodup_cons.mp hnodup).1 (by simp [mem_def.mp hy])
  rw [nodes_setUsed, if_neg hy', hsame'.used]
  exact hnext y hy

theorem Rep.growBackward (hr : Rep h (front ++ prev :: id :: next.toList ++ back))
    (hprev : (h.nodes prev).used = false) (hused : (h.nodes id).used = true)
    (hnext : ∀ y ∈ next, (h.nodes y).used = false) (hfreeNext : h.freeNext id = next)
    (hnextSize : h.sizeOf (h.nodes id).next = h.sizeOf next)
    (hright : ∀ c ∈ (h.row back).head?, c.used = true)
    (haddress : address - h.base = (h.nodes id).offset) (hmin : 256 ≤ size) (hmod : size % 256 = 0)
    (hgrow : (h.nodes id).size < size)
    (hle : size ≤ (h.nodes prev).size + (h.nodes id).size + h.sizeOf next) :
    ∃ h' bs', h.growBackward address id prev size =
        some (some ⟨(h.base + (h.nodes prev).offset) % 2 ^ 64, (h.nodes id).size⟩, h') ∧
      Becomes h h' bs' ∧
      Resized (h.row (front ++ prev :: id :: next.toList ++ back)) (h.blockOf id) size
        (h.blockOf prev) ((h.nodes prev).size + (h.nodes id).size + h.sizeOf next) bs' := by
  obtain ⟨h₁, h₂, parked, hunbin, hunbin', hdiagnostics, hb⟩ := hr.backs hprev hused hnext hright
  have htotal : Layout.total (h.row (prev :: id :: next.toList)) =
      (h.nodes prev).size + (h.nodes id).size + h.sizeOf next := by
    rw [Nat.add_assoc]
    cases next <;> rfl
  have hafter : (next.elim (h.nodes id).next fun i => (h.nodes i).next) = back.head? := by
    cases next with
    | none => exact hr.work.next_eq [prev] rfl
    | some n => exact hr.work.next_eq [prev, id] rfl
  have hothers : ∀ y ∈ prev :: id :: next.toList, y ≠ id → (h.nodes y).used = false := by
    intro y hy hne
    rcases mem_cons.mp hy with rfl | hy
    · exact hprev
    · exact hnext y (by simpa [hne] using hy)
  have hid : id ∈ prev :: id :: next.toList := by simp
  obtain ⟨h₃, hcut, hdiagnostics₃, hbecomes⟩ := hb.resizeTo hmin hmod (htotal ▸ hle)
  rw [resizeTo, htotal, ← hafter] at hcut
  rw [usedTotal_resizedBlocks, htotal] at hbecomes
  have hdone := hbecomes (h₃.addAllocated ((if size + 256 ≤ (h.nodes prev).size +
    (h.nodes id).size + h.sizeOf next then size else (h.nodes prev).size + (h.nodes id).size +
    h.sizeOf next) - (h.nodes id).size)).diagnostics (by rw [← hdiagnostics₃]; rfl) (by
      change h₃.diagnostics.allocated + (_ - (h.nodes id).size) + (h.nodes id).size = _
      rw [hdiagnostics₃, show (h₂.setUsed prev true).diagnostics = h₂.diagnostics from rfl,
        hdiagnostics]
      split_ifs <;> omega)
  refine ⟨_, _, ?_, hdone, htotal ▸ resized_part hid hothers (htotal ▸ hle)⟩
  refine bind_eq_some_iff.mpr ⟨h₁, hunbin, bind_eq_some_iff.mpr ⟨h₂, ?_, ?_⟩⟩
  · rw [hfreeNext]
    exact hunbin'
  dsimp only
  rw [hfreeNext, hnextSize, haddress, ← hdone.base]
  by_cases hsplit : size + 256 ≤ (h.nodes prev).size + (h.nodes id).size + h.sizeOf next
  · rw [if_pos hsplit] at hcut ⊢
    rw [if_pos (show fragmentSizeMin ≤ _ by rw [fragmentSizeMin]; omega), hcut]
    rfl
  · rw [if_neg hsplit] at hcut ⊢
    rw [if_neg (show ¬ fragmentSizeMin ≤ _ by rw [fragmentSizeMin]; omega), Nat.add_right_comm,
      Nat.add_sub_cancel, Nat.add_right_comm, ← Option.some.inj hcut]
    rfl

end Backward

/-! ### The cases -/

/-- The call passes all checks for a fragment, which is then resized. -/
structure Accepts (h : O1Heap) (address amount id : Nat) : Prop where
  amount_ne : amount ≠ 0
  base_le : h.base ≤ address
  offset_lt : address - h.base < 2 ^ 32
  get : h.hashes.get (address - h.base) = some id
  used : (h.nodes id).used = true
  valid : h.invalidSize (h.nodes id).size = false
  size_ne : fragmentSize amount ≠ 0
  amount_le : amount ≤ h.diagnostics.capacity
  size_le : fragmentSize amount ≤ h.diagnostics.capacity

instance {h : O1Heap} {address amount id : Nat} : Decidable (Accepts h address amount id) :=
  decidable_of_iff
    (amount ≠ 0 ∧ h.base ≤ address ∧ address - h.base < 2 ^ 32 ∧
      h.hashes.get (address - h.base) = some id ∧ (h.nodes id).used = true ∧
      h.invalidSize (h.nodes id).size = false ∧ fragmentSize amount ≠ 0 ∧
      amount ≤ h.diagnostics.capacity ∧ fragmentSize amount ≤ h.diagnostics.capacity)
    ⟨fun ⟨h₁, h₂, h₃, h₄, h₅, h₆, h₇, h₈, h₉⟩ => ⟨h₁, h₂, h₃, h₄, h₅, h₆, h₇, h₈, h₉⟩,
      fun ⟨h₁, h₂, h₃, h₄, h₅, h₆, h₇, h₈, h₉⟩ => ⟨h₁, h₂, h₃, h₄, h₅, h₆, h₇, h₈, h₉⟩⟩

/-- The call grows the fragment backward and counts the size of a used fragment after it. -/
def CountsUsedNext (h : O1Heap) (address amount : Nat) : Prop :=
  ∃ id prev next, Accepts h address amount id ∧ (h.nodes id).size < fragmentSize amount ∧
    h.freePrev id = some prev ∧ (h.nodes id).next = some next ∧ (h.nodes next).used = true ∧
    fragmentSize amount ≤ (h.nodes prev).size + (h.nodes id).size + (h.nodes next).size

instance {h : O1Heap} {address amount : Nat} : Decidable (CountsUsedNext h address amount) :=
  decidable_of_iff
    (∃ id ∈ h.hashes.get (address - h.base), ∃ prev ∈ h.freePrev id, ∃ next ∈ (h.nodes id).next,
      Accepts h address amount id ∧ (h.nodes id).size < fragmentSize amount ∧
      (h.nodes next).used = true ∧
      fragmentSize amount ≤ (h.nodes prev).size + (h.nodes id).size + (h.nodes next).size)
    ⟨fun ⟨id, _, prev, hprev, next, hnext, ha, hgrow, hused, hle⟩ =>
        ⟨id, prev, next, ha, hgrow, hprev, hnext, hused, hle⟩,
      fun ⟨id, prev, next, ha, hgrow, hprev, hnext, hused, hle⟩ =>
        ⟨id, ha.get, prev, hprev, next, hnext, ha, hgrow, hused, hle⟩⟩

/-- The sizes that are added up when the call grows the fragment in place. -/
inductive Takes (h : O1Heap) (id size : Nat) : Nat → Prop
  | forward {next : Nat} (hnext : h.freeNext id = some next)
      (hle : size ≤ (h.nodes id).size + (h.nodes next).size) :
      Takes h id size ((h.nodes id).size + (h.nodes next).size)
  | backward {prev : Nat}
      (hforward : ∀ next, h.freeNext id = some next → (h.nodes id).size + (h.nodes next).size < size)
      (hprev : h.freePrev id = some prev)
      (hle : size ≤ (h.nodes prev).size + (h.nodes id).size + h.sizeOf (h.nodes id).next) :
      Takes h id size ((h.nodes prev).size + (h.nodes id).size + h.sizeOf (h.nodes id).next)

/-- The call grows the fragment in place and keeps a rest that no size of a request has. -/
def AbsorbsTail (h : O1Heap) (address amount : Nat) : Prop :=
  ∃ id total, Accepts h address amount id ∧ (h.nodes id).size < fragmentSize amount ∧
    Takes h id (fragmentSize amount) total ∧ total < fragmentSize amount + 256 ∧ total % 256 ≠ 0

def taken (h : O1Heap) (id size : Nat) : Option Nat :=
  let forward := (h.freeNext id).map fun next => (h.nodes id).size + (h.nodes next).size
  let backward := (h.freePrev id).map fun prev =>
    (h.nodes prev).size + (h.nodes id).size + h.sizeOf (h.nodes id).next
  (forward.filter (size ≤ ·)).or (backward.filter (size ≤ ·))

theorem takes_iff {total : Nat} : Takes h id size total ↔ h.taken id size = some total := by
  rw [taken]
  constructor
  · rintro (⟨hnext, hle⟩ | ⟨hforward, hprev, hle⟩)
    · simp [hnext, hle]
    have hnone : ((h.freeNext id).map fun next => (h.nodes id).size + (h.nodes next).size).filter
        (size ≤ ·) = none := by
      cases hnext : h.freeNext id with
      | none => rfl
      | some next => simp [hforward next hnext]
    simp only [hnone, hprev, none_or]
    simp [hle]
  · intro h
    simp only [or_eq_some_iff, filter_eq_some_iff, map_eq_some_iff] at h
    rcases h with ⟨⟨next, hnext, rfl⟩, hle⟩ | ⟨hnone, ⟨prev, hprev, rfl⟩, hle⟩
    · exact .forward hnext (of_decide_eq_true hle)
    · refine .backward (fun next hnext => ?_) hprev (of_decide_eq_true hle)
      simpa [hnext] using hnone

instance {h : O1Heap} {address amount : Nat} : Decidable (AbsorbsTail h address amount) :=
  decidable_of_iff
    (∃ id ∈ h.hashes.get (address - h.base), ∃ total ∈ h.taken id (fragmentSize amount),
      Accepts h address amount id ∧ (h.nodes id).size < fragmentSize amount ∧
      total < fragmentSize amount + 256 ∧ total % 256 ≠ 0)
    ⟨fun ⟨id, _, total, htotal, ha, hgrow, hlt, hodd⟩ =>
        ⟨id, total, ha, hgrow, takes_iff.mpr htotal, hlt, hodd⟩,
      fun ⟨id, total, ha, hgrow, htakes, hlt, hodd⟩ =>
        ⟨id, ha.get, total, takes_iff.mp htakes, ha, hgrow, hlt, hodd⟩⟩

/-- What a fragment that is resized becomes: with its free neighbours one used block, or a block
elsewhere. -/
inductive ResizeResult (h : O1Heap) (ids : List Nat) (id size : Nat) :
    Option ReallocResult → List Block → Prop
  | inPlace {c : Block} {total : Nat} {bs : List Block} {r : ReallocResult}
      (hresized : Resized (h.row ids) (h.blockOf id) size c total bs)
      (htotal : total = size ∨ size + 256 ≤ total ∨ (h.nodes id).size < size ∧ Takes h id size total)
      (haddr : c = h.blockOf id ∧ r = ⟨h.base + c.offset, 0⟩ ∨
        (h.nodes id).size < size ∧ r = ⟨(h.base + c.offset) % 2 ^ 64, (h.nodes id).size⟩) :
      ResizeResult h ids id size (some r) bs
  | moved {l r : List Block} {c : Block} (hrow : h.row ids = l ++ c :: r)
      (hfree : c.used = false) (hle : size ≤ c.size) (hgrow : (h.nodes id).size < size) :
      ResizeResult h ids id size (some ⟨(c.offset + h.base) % 2 ^ 64, (h.nodes id).size⟩)
        (freeRow (l ++ takenBlocks c size ++ r) (h.nodes id).offset)
  | failed : ResizeResult h ids id size none (h.row ids)

section Cases

variable {h : O1Heap} {ids front back : List Nat} {id address amount : Nat}

theorem Rep.freePrev_cases (hr : Rep h (front ++ id :: back)) :
    h.freePrev id = none ∨ ∃ front' prev, front = front' ++ [prev] ∧ (h.nodes prev).used = false ∧
      h.freePrev id = some prev := by
  obtain ⟨lists, hs⟩ := hr.shape
  rw [hs.freePrev fun x _ => Set.notMem_empty x]
  exact (exists_left h front).imp_left And.left

theorem fragmentSize_min (hsize : fragmentSize amount ≠ 0) :
    256 ≤ fragmentSize amount ∧ fragmentSize amount % 256 = 0 := by
  obtain ⟨k, hk⟩ := fragmentSize_eq hsize
  rw [hk]
  exact ⟨Nat.le_mul_of_pos_right _ (Nat.two_pow_pos k), Nat.mul_mod_right _ _⟩

theorem Rep.moveAway (hr : Rep h ids) (haddress : h.offsetOf address = (h.nodes id).offset)
    (hgrow : (h.nodes id).size < fragmentSize amount) :
    ∃ r h' bs', h.moveAway address amount (h.nodes id).size = some (r, h') ∧ Becomes h h' bs' ∧
      ResizeResult h ids id (fragmentSize amount) r bs' := by
  by_cases hfits : Fits (h.row ids) amount
  · obtain ⟨l, c, r, h₁, hrow, hfree, hle, hallocate, hbecomes⟩ := hr.allocate_of_fits hfits
    obtain ⟨ids₁, hr₁, hrow₁⟩ := hbecomes.rep
    obtain ⟨h', hfreed, hbecomes'⟩ := hr₁.becomes_free address
    have hoffset : h₁.offsetOf address = (h.nodes id).offset := by
      rw [offsetOf, hbecomes.base]
      exact haddress
    rw [hrow₁, hoffset] at hbecomes'
    refine ⟨some ⟨(c.offset + h.base) % 2 ^ 64, (h.nodes id).size⟩, h', _, ?_, hbecomes.trans hbecomes',
      .moved hrow hfree hle hgrow⟩
    exact bind_eq_some_iff.mpr ⟨_, hallocate, bind_eq_some_iff.mpr ⟨h', hfreed, rfl⟩⟩
  · obtain ⟨h', hallocate, hbecomes⟩ := hr.allocate_of_not_fits hfits
    refine ⟨none, h', _, ?_, hbecomes, .failed⟩
    exact bind_eq_some_iff.mpr ⟨_, hallocate, rfl⟩

theorem Accepts.address_eq (ha : Accepts h address amount id) (hr : Rep h ids) :
    id ∈ ids ∧ address - h.base = (h.nodes id).offset ∧
      h.offsetOf address = (h.nodes id).offset ∧ address = h.base + (h.nodes id).offset := by
  obtain ⟨hid, -, hoffset⟩ := hr.indexed_iff.mp ⟨ha.get, ha.used⟩
  have hbase := ha.base_le
  have hlt := ha.offset_lt
  refine ⟨hid, hoffset.symm, ?_, by omega⟩
  rw [hoffset, offsetOf]
  omega

theorem Accepts.size_mod (ha : Accepts h address amount id) : (h.nodes id).size % 256 = 0 := by
  have hvalid := ha.valid
  rw [invalidSize, Bool.or_eq_false_iff] at hvalid
  exact not_not.mp (of_decide_eq_false hvalid.2)

theorem sizeOf_next_of_freeNext {next : Nat} (hnext : h.freeNext id = some next) :
    h.sizeOf (h.nodes id).next = (h.nodes next).size := by
  obtain ⟨hlink, -⟩ := filter_eq_some_iff.mp hnext
  rw [hlink]
  rfl

theorem sizeOf_prev_of_freePrev {prev : Nat} (hprev : h.freePrev id = some prev) :
    h.sizeOf (h.upgrade (h.nodes id).prev) = (h.nodes prev).size := by
  obtain ⟨hlink, -⟩ := filter_eq_some_iff.mp hprev
  rw [hlink]
  rfl

theorem Rep.resizeBackward {front' : List Nat} {prev : Nat}
    (hr : Rep h (front' ++ [prev] ++ id :: back)) (ha : Accepts h address amount id)
    (hgood : ¬ CountsUsedNext h address amount) (hfree : (h.nodes prev).used = false)
    (hprev : h.freePrev id = some prev) (hgrow : (h.nodes id).size < fragmentSize amount)
    (hforward : ∀ next, h.freeNext id = some next →
      (h.nodes id).size + (h.nodes next).size < fragmentSize amount) (hle : fragmentSize amount ≤
      (h.nodes prev).size + (h.nodes id).size + h.sizeOf (h.nodes id).next) :
    ∃ r h' bs', h.growBackward address id prev (fragmentSize amount) = some (r, h') ∧
      Becomes h h' bs' ∧
      ResizeResult h (front' ++ [prev] ++ id :: back) id (fragmentSize amount) r bs' := by
  obtain ⟨-, haddress, -, -⟩ := ha.address_eq hr
  obtain ⟨hmin, hmod⟩ := fragmentSize_min ha.size_ne
  have hlink : (h.nodes id).next = back.head? := by
    obtain ⟨lists, hs⟩ := hr.shape
    exact hs.linked.at_split.1
  obtain ⟨next, back, rfl, hfreeNext, hnext, hright⟩ := hr.freeNext_split
  have hnextSize : h.sizeOf (h.nodes id).next = h.sizeOf next := by
    cases next with
    | some n => rw [hlink]; rfl
    | none =>
      cases back with
      | nil => rw [hlink]; rfl
      | cons n back =>
        have hused : (h.nodes n).used = true := hright (h.blockOf n) rfl
        rw [hlink] at hle
        exact absurd ⟨id, prev, n, ha, hgrow, hprev, hlink, hused, hle⟩ hgood
  have hids : front' ++ [prev] ++ id :: (next.toList ++ back) =
      front' ++ prev :: id :: next.toList ++ back := by
    simp
  rw [hids] at hr ⊢
  obtain ⟨h', bs', hcall, hbecomes, hresized⟩ := hr.growBackward hfree ha.used hnext hfreeNext hnextSize
    hright haddress hmin hmod hgrow (by rwa [← hnextSize])
  refine ⟨_, h', bs', hcall, hbecomes, .inPlace hresized (.inr (.inr ⟨hgrow, ?_⟩)) (.inr ⟨hgrow, rfl⟩)⟩
  rw [← hnextSize]
  exact .backward hforward hprev hle

theorem Rep.resize (hr : Rep h ids) (ha : Accepts h address amount id)
    (hgood : ¬ CountsUsedNext h address amount) :
    ∃ r h' bs', h.resize address id amount = some (r, h') ∧ Becomes h h' bs' ∧
      ResizeResult h ids id (fragmentSize amount) r bs' := by
  obtain ⟨hid, haddress, hoffset, haddr⟩ := ha.address_eq hr
  obtain ⟨hmin, hmod⟩ := fragmentSize_min ha.size_ne
  obtain ⟨front, back, rfl⟩ := append_of_mem hid
  have hsame : h.blockOf id = h.blockOf id ∧
      (⟨address, 0⟩ : ReallocResult) = ⟨h.base + (h.blockOf id).offset, 0⟩ :=
    ⟨rfl, congrArg (ReallocResult.mk · 0) haddr⟩
  rw [O1Heap.resize]
  by_cases hshrink : fragmentSize amount ≤ (h.nodes id).size
  · obtain ⟨h', total, bs', hcall, hbecomes, hresized, htotal⟩ :=
      hr.shrink ha.used ha.size_mod haddress hmin hmod hshrink
    exact ⟨_, h', bs', (if_pos hshrink).trans hcall, hbecomes,
      .inPlace hresized (htotal.imp_right .inl) (.inl hsame)⟩
  have hgrow := not_le.mp hshrink
  rw [if_neg hshrink]
  cases hforward : (h.freeNext id).filter
      (fun _ => fragmentSize amount ≤ (h.nodes id).size + h.sizeOf (h.nodes id).next) with
  | some next =>
    obtain ⟨hnext, hle⟩ := filter_eq_some_iff.mp hforward
    obtain ⟨_, back, rfl, hfreeNext, hfree, hright⟩ := hr.freeNext_split
    obtain rfl := hfreeNext.symm.trans hnext
    rw [sizeOf_next_of_freeNext hnext] at hle
    have hle := of_decide_eq_true hle
    rw [← cons_append, ← append_assoc] at hr ⊢
    obtain ⟨h', bs', hcall, hbecomes, hresized⟩ := hr.growForward ha.used hfree hright haddress
      hmin hmod hgrow hle
    exact ⟨_, h', bs', hcall, hbecomes,
      .inPlace hresized (.inr (.inr ⟨hgrow, .forward hnext hle⟩)) (.inl hsame)⟩
  | none =>
    have hsmall : ∀ next, h.freeNext id = some next →
        (h.nodes id).size + (h.nodes next).size < fragmentSize amount := by
      intro next hnext
      rw [hnext, filter_eq_none_iff] at hforward
      have hlt := hforward next rfl
      rw [sizeOf_next_of_freeNext hnext] at hlt
      exact not_le.mp fun hle => hlt (decide_eq_true hle)
    cases hbackward : (h.freePrev id).filter (fun _ => fragmentSize amount ≤
        h.sizeOf (h.upgrade (h.nodes id).prev) + (h.nodes id).size +
          h.sizeOf (h.nodes id).next) with
    | none => exact hr.moveAway hoffset hgrow
    | some prev =>
      obtain ⟨hprev, hle⟩ := filter_eq_some_iff.mp hbackward
      rcases hr.freePrev_cases with hnone | ⟨front', prev', rfl, hfree, hprev'⟩
      · rw [hnone] at hprev
        cases hprev
      · obtain rfl : prev' = prev := by rwa [hprev', Option.some.injEq] at hprev
        rw [sizeOf_prev_of_freePrev hprev] at hle
        exact hr.resizeBackward ha hgood hfree hprev hgrow hsmall (of_decide_eq_true hle)

end Cases

/-! ### The call -/

section Call

variable {h : O1Heap} {ids : List Nat} {address amount : Nat}

theorem Rep.recordRequest (hr : Rep h ids) (amount : Nat) : Rep (h.recordRequest amount) ids := by
  obtain ⟨lists, hs⟩ := hr.shape
  exact ⟨⟨lists, hs.of_diagnostics _⟩, hr.layout, hr.allocated, hr.small⟩

theorem accepts_recordRequest :
    Accepts (h.recordRequest amount) address amount id ↔ Accepts h address amount id := by
  constructor
  · rintro ⟨h₁, h₂, h₃, h₄, h₅, h₆, h₇, h₈, h₉⟩
    exact ⟨h₁, h₂, h₃, h₄, h₅, h₆, h₇, h₈, h₉⟩
  · rintro ⟨h₁, h₂, h₃, h₄, h₅, h₆, h₇, h₈, h₉⟩
    exact ⟨h₁, h₂, h₃, h₄, h₅, h₆, h₇, h₈, h₉⟩

theorem countsUsedNext_recordRequest :
    CountsUsedNext (h.recordRequest amount) address amount ↔ CountsUsedNext h address amount := by
  simp only [CountsUsedNext, accepts_recordRequest]
  rfl

theorem Takes.of_recordRequest {total : Nat} (ht : Takes (h.recordRequest amount) id size total) :
    Takes h id size total := by
  cases ht with
  | forward hnext hle => exact .forward hnext hle
  | backward hforward hprev hle => exact .backward hforward hprev hle

theorem ResizeResult.of_recordRequest {r : Option ReallocResult} {bs : List Block}
    (hr : ResizeResult (h.recordRequest amount) ids id size r bs) :
    ResizeResult h ids id size r bs := by
  cases hr with
  | inPlace hresized htotal haddr =>
    exact .inPlace hresized (htotal.imp_right (Or.imp_right (And.imp_right Takes.of_recordRequest)))
      haddr
  | moved hrow hfree hle hgrow => exact .moved hrow hfree hle hgrow
  | failed => exact .failed

theorem Accepts.reallocate_eq (ha : Accepts h address amount id) :
    h.reallocate address amount = (h.recordRequest amount).resize address id amount := by
  have ha' := accepts_recordRequest.mpr ha
  have hrange := not_or.mpr ⟨not_lt.mpr ha'.base_le, not_le.mpr ha'.offset_lt⟩
  have hfits := not_or.mpr ⟨ha'.size_ne, not_or.mpr
    ⟨not_lt.mpr ha'.amount_le, not_lt.mpr ha'.size_le⟩⟩
  rw [O1Heap.reallocate, if_neg ha.amount_ne]
  dsimp only
  rw [if_neg hrange, ha'.get]
  dsimp only
  rw [ha'.used, ha'.valid, if_neg hfits]
  rfl

theorem reallocate_refused (hamount : amount ≠ 0) (hno : ¬ ∃ id, Accepts h address amount id) :
    ∃ h', h.reallocate address amount = some (none, h') ∧
      (h' = h.recordRequest amount ∨ h' = (h.recordRequest amount).countOom) := by
  rw [O1Heap.reallocate, if_neg hamount]
  dsimp only
  by_cases hrange : address < (h.recordRequest amount).base ∨
      2 ^ 32 ≤ address - (h.recordRequest amount).base
  · exact ⟨_, if_pos hrange, .inl rfl⟩
  rw [if_neg hrange]
  cases hget : (h.recordRequest amount).hashes.get (address - (h.recordRequest amount).base) with
  | none => exact ⟨_, rfl, .inl rfl⟩
  | some id =>
    dsimp only
    split_ifs with hunused hinvalid hlarge
    · exact ⟨_, rfl, .inl rfl⟩
    · exact ⟨_, rfl, .inl rfl⟩
    · exact ⟨_, rfl, .inr rfl⟩
    obtain ⟨hbase, hlt⟩ := not_or.mp hrange
    obtain ⟨hsize, hle⟩ := not_or.mp hlarge
    obtain ⟨hle, hle'⟩ := not_or.mp hle
    refine absurd ⟨id, hamount, not_lt.mp hbase, not_le.mp hlt, hget, ?_, ?_, hsize,
      not_lt.mp hle, not_lt.mp hle'⟩ hno
    · exact Bool.of_not_eq_false fun hfalse => hunused (congrArg not hfalse)
    · exact Bool.not_eq_true _ ▸ hinvalid

inductive ReallocateResult (h : O1Heap) (ids : List Nat) (address amount : Nat) :
    Option ReallocResult → List Block → Prop
  | free (hamount : amount = 0) :
      ReallocateResult h ids address amount none (freeRow (h.row ids) (h.offsetOf address))
  | refused (hamount : amount ≠ 0) (hno : ¬ ∃ id, Accepts h address amount id) :
      ReallocateResult h ids address amount none (h.row ids)
  | resized {id : Nat} {r : Option ReallocResult} {bs : List Block}
      (ha : Accepts h address amount id)
      (hresize : ResizeResult h ids id (fragmentSize amount) r bs) :
      ReallocateResult h ids address amount r bs

theorem Rep.reallocate (hr : Rep h ids) (hgood : ¬ CountsUsedNext h address amount) :
    ∃ r h' bs, h.reallocate address amount = some (r, h') ∧ Becomes h h' bs ∧
      ReallocateResult h ids address amount r bs := by
  have hrecord : Becomes h (h.recordRequest amount) (h.row ids) :=
    ⟨rfl, rfl, ids, hr.recordRequest amount, rfl⟩
  by_cases hamount : amount = 0
  · obtain ⟨h', hfree, hbecomes⟩ := hr.becomes_free address
    refine ⟨none, h', _, ?_, hbecomes, .free hamount⟩
    rw [O1Heap.reallocate, if_pos hamount, hfree]
    rfl
  by_cases hex : ∃ id, Accepts h address amount id
  · obtain ⟨id, ha⟩ := hex
    obtain ⟨r, h', bs, hcall, hbecomes, hresult⟩ := (hr.recordRequest amount).resize
      (accepts_recordRequest.mpr ha) (fun h => hgood (countsUsedNext_recordRequest.mp h))
    exact ⟨r, h', bs, ha.reallocate_eq.trans hcall, hrecord.trans hbecomes,
      .resized ha hresult.of_recordRequest⟩
  · obtain ⟨h', hcall, rfl | rfl⟩ := reallocate_refused hamount hex
    · exact ⟨none, _, _, hcall, hrecord, .refused hamount hex⟩
    · exact ⟨none, _, _, hcall, hrecord.trans (hr.recordRequest amount).becomes_countOom,
        .refused hamount hex⟩

end Call

end Mwemu.O1Heap
