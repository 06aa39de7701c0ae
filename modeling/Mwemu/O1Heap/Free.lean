import Mwemu.O1Heap.Work

/-!
# Release

A released block becomes free and is merged with its free neighbours. On the row this is one simple
function: the block is marked free, and then any two neighbours that are both free become one. A
block whose size is not a multiple of the smallest fragment is not released at all.
-/

namespace Mwemu.O1Heap

open Mwemu.Lib List Option

/-! ### Merging neighbours -/

/-- The block in front of the row, joined to the first one if both are free. -/
def join (b : Block) : List Block → List Block
  | [] => [b]
  | c :: cs => if b.used ∨ c.used then b :: c :: cs else ⟨b.offset, b.size + c.size, false⟩ :: cs

def merge (bs : List Block) : List Block :=
  bs.foldr join []

variable {b : Block} {bs : List Block}

theorem join_of_isChain (hchain : (b :: bs).IsChain Apart) : join b bs = b :: bs := by
  cases bs with
  | nil => rfl
  | cons c cs => exact if_pos (isChain_cons_cons.mp hchain).1

variable {l : List Block}

theorem foldr_join (hchain : (l ++ bs).IsChain Apart) : l.foldr join bs = l ++ bs := by
  induction l with
  | nil => rfl
  | cons b l ih =>
    rw [cons_append] at hchain ⊢
    rw [foldr_cons, ih hchain.tail, join_of_isChain hchain]

theorem join_free {c : Block} (hb : b.used = false) (hc : c.used = false) (cs : List Block) :
    join b (c :: cs) = ⟨b.offset, b.size + c.size, false⟩ :: cs := by
  refine if_neg ?_
  rw [hb, hc]
  exact fun h => h.elim Bool.false_ne_true Bool.false_ne_true

variable {r : List Block}

theorem foldr_join_free {mid : List Block} (hmid : ∀ c ∈ b :: mid, c.used = false)
    (hright : ∀ c ∈ r.head?, c.used = true) (hr : r.IsChain Apart) :
    (b :: mid).foldr join r = ⟨b.offset, Layout.total (b :: mid), false⟩ :: r := by
  have hb : b.used = false := hmid b mem_cons_self
  induction mid generalizing b with
  | nil =>
    have hchain : (b :: r).IsChain Apart := isChain_cons.mpr ⟨fun c hc => .inr (hright c hc), hr⟩
    rw [foldr_cons, foldr_nil, join_of_isChain hchain, ← hb]
    rfl
  | cons c mid ih =>
    have hrest : ∀ d ∈ c :: mid, d.used = false := fun d hd => hmid d (mem_cons_of_mem _ hd)
    rw [foldr_cons, ih hrest (hrest c mem_cons_self), join_free hb rfl]
    rfl

theorem merge_part {cap : Nat} {mid : List Block}
    (hlayout : Layout cap (l ++ [⟨b.offset, Layout.total (b :: mid), false⟩] ++ r))
    (hmid : ∀ c ∈ b :: mid, c.used = false) :
    merge (l ++ b :: mid ++ r) = l ++ [⟨b.offset, Layout.total (b :: mid), false⟩] ++ r := by
  rw [append_assoc] at hlayout ⊢
  have hchain := hlayout.apart
  have hr : r.IsChain Apart := hchain.right_of_append.tail
  have hright : ∀ c ∈ r.head?, c.used = true := hlayout.right_used rfl
  have hmerge : merge r = r := by
    rw [merge, foldr_join (by rwa [append_nil]), append_nil]
  rw [merge, foldr_append, foldr_append, show r.foldr join [] = r from hmerge,
    foldr_join_free hmid hright hr, append_assoc]
  exact foldr_join hchain

/-! ### Used blocks of a released row -/

theorem filter_used_join (b : Block) (bs : List Block) :
    (join b bs).filter Block.used = (b :: bs).filter Block.used := by
  cases bs with
  | nil => rfl
  | cons c cs =>
    rw [join]
    split_ifs with hused
    · rfl
    · -- the blocks that are joined are both free, and so is what they become
      obtain ⟨hb, hc⟩ := not_or.mp hused
      rw [filter_cons_of_neg Bool.false_ne_true, filter_cons_of_neg hb, filter_cons_of_neg hc]

theorem filter_used_merge (bs : List Block) : (merge bs).filter Block.used = bs.filter Block.used := by
  induction bs with
  | nil => rfl
  | cons b bs ih =>
    rw [merge, foldr_cons, filter_used_join, filter_cons, filter_cons]
    exact if_congr Iff.rfl (congrArg _ ih) ih

def release (bs : List Block) (o : Nat) : List Block :=
  merge (bs.map fun b => if b.offset = o then { b with used := false } else b)

theorem filter_used_release (bs : List Block) (o : Nat) :
    (release bs o).filter Block.used = bs.filter fun b => b.used && decide (b.offset ≠ o) := by
  rw [release, filter_used_merge]
  induction bs with
  | nil => rfl
  | cons b bs ih =>
    rw [map_cons, filter_cons, filter_cons, ih]
    by_cases ho : b.offset = o <;> simp [ho]

theorem mem_release_used {o : Nat} (hb : b.used = true) :
    b ∈ release bs o ↔ b ∈ bs ∧ b.offset ≠ o := by
  have hmem : b ∈ (release bs o).filter Block.used ↔ b ∈ release bs o := by simp [hb]
  rw [← hmem, filter_used_release, mem_filter, hb, Bool.true_and, decide_eq_true_eq]

def freeRow (bs : List Block) (o : Nat) : List Block :=
  if ∃ b ∈ bs, b.used = true ∧ b.offset = o ∧ b.size % 256 = 0 then release bs o else bs

theorem release_part {cap : Nat} {left right : List Block} {c : Block}
    (hlayout : Layout cap (l ++ (left ++ b :: right) ++ r))
    (hfirst : (left ++ b :: right).head? = some c) (hleft : ∀ d ∈ left, d.used = false)
    (hright : ∀ d ∈ right, d.used = false)
    (hmerged : Layout cap (l ++ [⟨c.offset, Layout.total (left ++ b :: right), false⟩] ++ r)) :
    release (l ++ (left ++ b :: right) ++ r) b.offset =
      l ++ [⟨c.offset, Layout.total (left ++ b :: right), false⟩] ++ r := by
  -- only the block itself is marked, as no other has its offset
  have hother : ∀ d, (d ∈ l ∨ d ∈ left ∨ d ∈ right ∨ d ∈ r) → d.offset ≠ b.offset := by
    intro d hd
    have hpairs := hlayout.pairwise
    have hd' := hlayout.min d (by simp only [mem_append, mem_cons]; tauto)
    have hb := hlayout.min b (by simp)
    simp only [pairwise_append, pairwise_cons, mem_append, mem_cons] at hpairs
    obtain ⟨⟨-, ⟨-, ⟨hbright, -⟩, hleftb⟩, hlb⟩, -, hbr⟩ := hpairs
    rcases hd with hd | hd | hd | hd
    · have := hlb d hd b (.inr (.inl rfl))
      omega
    · have := hleftb d hd b (.inl rfl)
      omega
    · have := hbright d hd
      omega
    · have := hbr b (.inr (.inr (.inl rfl))) d hd
      omega
  have hkeep : ∀ bs : List Block, (∀ d ∈ bs, d.offset ≠ b.offset) →
      bs.map (fun d => if d.offset = b.offset then { d with used := false } else d) = bs := by
    intro bs hbs
    refine (map_congr_left fun d hd => ?_).trans (map_id bs)
    exact if_neg (hbs d hd)
  have hmap : (l ++ (left ++ b :: right) ++ r).map
      (fun d => if d.offset = b.offset then { d with used := false } else d) =
        l ++ (left ++ { b with used := false } :: right) ++ r := by
    simp only [map_append, map_cons, if_true]
    rw [hkeep l fun d hd => hother d (.inl hd), hkeep left fun d hd => hother d (.inr (.inl hd)),
      hkeep right fun d hd => hother d (.inr (.inr (.inl hd))),
      hkeep r fun d hd => hother d (.inr (.inr (.inr hd)))]
  have htotal : Layout.total (left ++ { b with used := false } :: right) =
      Layout.total (left ++ b :: right) := by
    simp only [Layout.total, map_append, map_cons]
  have hfree : ∀ d ∈ left ++ { b with used := false } :: right, d.used = false := by
    intro d hd
    rcases mem_append.mp hd with hd | hd
    · exact hleft d hd
    · rcases mem_cons.mp hd with rfl | hd
      · rfl
      · exact hright d hd
  rw [release, hmap, ← htotal]
  rw [← htotal] at hmerged
  cases left with
  | nil =>
    cases hfirst
    exact merge_part hmerged hfree
  | cons d left =>
    cases hfirst
    exact merge_part hmerged hfree

/-! ### Neighbours -/

section Neighbours

variable {h : O1Heap} {front back : List Nat} {lists : Nat → List Nat} {parked : Set Nat} {id : Nat}

theorem Shape.freeNext (hs : Shape h (front ++ id :: back) lists parked) :
    h.freeNext id = back.head?.filter fun i => !(h.nodes i).used := by
  rw [O1Heap.freeNext, show (h.nodes id).next = back.head? from hs.linked.at_split.1]

theorem Shape.freePrev (hs : Shape h (front ++ id :: back) lists parked)
    (hprev : ∀ x ∈ front.getLast?, x ∉ parked) :
    h.freePrev id = front.getLast?.filter fun i => !(h.nodes i).used := by
  rw [O1Heap.freePrev, show (h.nodes id).prev = front.getLast? from hs.linked.at_split.2]
  cases hlast : front.getLast? with
  | none => rfl
  | some x =>
    have hx : x ∈ front := mem_of_getLast? hlast
    have hheld := hs.held (mem_append_left _ hx) (hprev x hlast)
    rw [upgrade_eq_some hheld]

theorem filter_used_congr {h' : O1Heap} {o : Option Nat}
    (hsame : ∀ x ∈ o, (h'.nodes x).used = (h.nodes x).used) :
    (o.filter fun i => !(h'.nodes i).used) = o.filter fun i => !(h.nodes i).used := by
  cases o with
  | none => rfl
  | some x => rw [filter_some, filter_some, hsame x rfl]

end Neighbours

/-! ### Coalescing -/

section Coalesce

variable {h h₁ : O1Heap} {front rest back : List Nat} {parked : Set Nat} {id : Nat}

theorem Work.rebin_finish (hw : Work h front (id :: rest) back h₁ [id] parked)
    (hall : ∀ y ∈ id :: rest, y ∈ parked) (hfree : ∀ y ∈ id :: rest, (h₁.nodes y).used = false)
    (hsize : (h₁.nodes id).size = Layout.total (h.row (id :: rest)))
    (hleft : ∀ c ∈ (h.row front).getLast?, c.used = true)
    (hright : ∀ c ∈ (h.row back).head?, c.used = true)
    (hallocated : h₁.diagnostics.allocated + usedTotal (h.row (id :: rest)) =
      h.diagnostics.allocated) : ∃ h', h₁.rebin id = some h' ∧ Becomes h h'
      (h.row front ++ [⟨(h.nodes id).offset, Layout.total (h.row (id :: rest)), false⟩] ++
        h.row back) := by
  have hid : id ∈ id :: rest := mem_cons_self
  have hidMem : id ∈ front ++ id :: rest ++ back := Work.mid_mem hid
  obtain ⟨-, -, -, hlt⟩ := hw.rep.spans
  have hmin : 256 ≤ Layout.total (h.row (id :: rest)) :=
    Nat.le_trans (hw.rep.min_size hidMem) (Nat.le_add_right _ _)
  obtain ⟨h', hrebin, hsame, hw'⟩ := hw.rebin (mem_singleton_self id) (hall id hid) (hfree id hid)
    (by omega) (by omega)
  refine ⟨h', hrebin, hw'.finish ?_ ?_ ?_ ?_⟩
  · rintro y ⟨hy, hne⟩
    refine .inr ⟨fun h => hne (mem_singleton.mp h), ?_⟩
    rw [hsame.used]
    exact hfree y (hw.parked_old y hy)
  · rw [row_cons, hsame.blockOf, blockOf, hsize, hfree id hid, hw.offset id (hw.old_lt hidMem)]
    rfl
  · have hlayout := hw.rep.layout
    rw [row_append, row_append, row_cons] at hlayout
    exact hlayout.edit_free hleft hright
  · rw [hsame.diagnostics, hallocated]
    rfl

theorem Work.absorb_finish (hw : Work h front (id :: rest) back h₁ (id :: rest) parked)
    (hall : ∀ y ∈ id :: rest, y ∈ parked) (hfree : ∀ y ∈ id :: rest, (h₁.nodes y).used = false)
    (hleft : ∀ c ∈ (h.row front).getLast?, c.used = true)
    (hright : ∀ c ∈ (h.row back).head?, c.used = true)
    (hallocated : h₁.diagnostics.allocated + usedTotal (h.row (id :: rest)) =
      h.diagnostics.allocated) :
    ∃ h', (h₁.absorb id (Layout.total (h.row (id :: rest))) back.head?).rebin id = some h' ∧
      Becomes h h' (h.row front ++
        [⟨(h.nodes id).offset, Layout.total (h.row (id :: rest)), false⟩] ++ h.row back) := by
  obtain ⟨-, -, -, hlt⟩ := hw.rep.spans
  refine (hw.absorb hall _).rebin_finish hall (fun y hy => ?_) ?_ hleft hright hallocated
  · rw [O1Heap.absorb, nodes_linkNext, nodes_setSize]
    exact hfree y hy
  · rw [O1Heap.absorb, nodes_linkNext, nodes_setSize]
    exact (if_pos rfl).trans (Nat.mod_eq_of_lt (by omega))

end Coalesce

/-- The heap before coalescing: the fragment is released, and the part is free. -/
structure Released (h : O1Heap) (front old back : List Nat) (h₁ : O1Heap) (id : Nat) : Prop where
  work : Work h front old back h₁ old {id}
  free : ∀ y ∈ old, (h₁.nodes y).used = false
  size : ∀ y ∈ old, (h₁.nodes y).size = (h.nodes y).size
  left : ∀ c ∈ (h.row front).getLast?, c.used = true
  right : ∀ c ∈ (h.row back).head?, c.used = true
  allocated : h₁.diagnostics.allocated + usedTotal (h.row old) = h.diagnostics.allocated

namespace Released

variable {h h₁ : O1Heap} {front back : List Nat} {id prev next : Nat}

theorem coalesce_none (hr : Released h front [id] back h₁ id) (hprev : h₁.freePrev id = none)
    (hnext : h₁.freeNext id = none) : ∃ h', h₁.coalesce id = some h' ∧ Becomes h h'
      (h.row front ++ [⟨(h.nodes id).offset, Layout.total (h.row [id]), false⟩] ++ h.row back) := by
  rw [coalesce, hprev, hnext]
  exact hr.work.rebin_finish (by simp) hr.free (hr.size id mem_cons_self) hr.left hr.right
    hr.allocated

theorem coalesce_next (hr : Released h front [id, next] back h₁ id) (hprev : h₁.freePrev id = none)
    (hnext : h₁.freeNext id = some next) : ∃ h', h₁.coalesce id = some h' ∧ Becomes h h'
      (h.row front ++ [⟨(h.nodes id).offset, Layout.total (h.row [id, next]), false⟩] ++
        h.row back) := by
  have hmem : next ∈ [id, next] := by simp
  have hne : id ≠ next := by simpa using hr.work.mid_nodup
  obtain ⟨h₂, hunbin, hsame, hw₂⟩ := hr.work.unbin hmem hmem (Ne.symm hne) (hr.free next hmem)
    (by rw [hr.size next hmem]; exact hr.work.rep.min_size (Work.mid_mem hmem))
  have hw₃ := hw₂.setSize (Set.mem_insert _ _) 0
  have hafter := hw₃.next_eq [id] rfl
  have htotal : (h₂.nodes id).size + (h₂.nodes next).size = Layout.total (h.row [id, next]) := by
    rw [hsame.size, hsame.size, hr.size id mem_cons_self, hr.size next hmem]
    rfl
  obtain ⟨h', hrebin, hbecomes⟩ := hw₃.absorb_finish (by simp)
    (fun y hy => by rw [nodes_setSize, hsame.used]; exact hr.free y hy) hr.left hr.right
    (by rw [← hr.allocated, ← hsame.diagnostics]; rfl)
  refine ⟨h', ?_, hbecomes⟩
  rw [coalesce, hprev, hnext]
  refine bind_eq_some_iff.mpr ⟨h₂, hunbin, ?_⟩
  rw [← hafter] at hrebin
  rw [if_neg hne, htotal]
  exact hrebin

theorem coalesce_prev (hr : Released h front [prev, id] back h₁ id)
    (hprev : h₁.freePrev id = some prev) (hnext : h₁.freeNext id = none) :
    ∃ h', h₁.coalesce id = some h' ∧ Becomes h h'
      (h.row front ++ [⟨(h.nodes prev).offset, Layout.total (h.row [prev, id]), false⟩] ++
        h.row back) := by
  have hmem : prev ∈ [prev, id] := by simp
  have hne : prev ≠ id := by simpa using hr.work.mid_nodup
  obtain ⟨h₂, hunbin, hsame, hw₂⟩ := hr.work.unbin hmem hmem hne (hr.free prev hmem)
    (by rw [hr.size prev hmem]; exact hr.work.rep.min_size (Work.mid_mem hmem))
  have hw₃ := hw₂.setSize (Set.mem_insert_of_mem _ rfl) 0
  have hafter := hw₃.next_eq [prev] rfl
  have htotal : (h₂.nodes prev).size + (h₂.nodes id).size = Layout.total (h.row [prev, id]) := by
    rw [hsame.size, hsame.size, hr.size prev hmem, hr.size id (by simp)]
    rfl
  obtain ⟨h', hrebin, hbecomes⟩ := hw₃.absorb_finish (by simp)
    (fun y hy => by rw [nodes_setSize, hsame.used]; exact hr.free y hy) hr.left hr.right
    (by rw [← hr.allocated, ← hsame.diagnostics]; rfl)
  refine ⟨h', ?_, hbecomes⟩
  rw [coalesce, hprev, hnext]
  refine bind_eq_some_iff.mpr ⟨h₂, hunbin, ?_⟩
  rw [← hafter] at hrebin
  rw [if_neg hne, htotal]
  exact hrebin

theorem coalesce_both (hr : Released h front [prev, id, next] back h₁ id)
    (hprev : h₁.freePrev id = some prev) (hnext : h₁.freeNext id = some next) :
    ∃ h', h₁.coalesce id = some h' ∧ Becomes h h'
      (h.row front ++ [⟨(h.nodes prev).offset, Layout.total (h.row [prev, id, next]), false⟩] ++
        h.row back) := by
  have hmem : prev ∈ [prev, id, next] := by simp
  have hmem' : next ∈ [prev, id, next] := by simp
  have hnodup := hr.work.mid_nodup
  simp only [nodup_cons, mem_cons, not_mem_nil, or_false, not_or] at hnodup
  obtain ⟨⟨hne, hne'⟩, hne'', -⟩ := hnodup
  have hmin := fun y (hy : y ∈ [prev, id, next]) => hr.work.rep.min_size (Work.mid_mem hy)
  obtain ⟨h₂, hunbin, hsame, hw₂⟩ := hr.work.unbin hmem hmem hne (hr.free prev hmem)
    (by rw [hr.size prev hmem]; exact hmin prev hmem)
  obtain ⟨h₃, hunbin', hsame', hw₃⟩ := hw₂.unbin hmem' hmem'
    (by simp [Ne.symm hne', Ne.symm hne'']) (by rw [hsame.used]; exact hr.free next hmem')
    (by rw [hsame.size, hr.size next hmem']; exact hmin next hmem')
  have hall : ∀ y ∈ [prev, id, next], y ∈ insert next (insert prev ({id} : Set Nat)) := by simp
  have hw₄ := (hw₃.setSize (hall id (by simp)) 0).setSize (hall next hmem') 0
  have hafter := hw₄.next_eq [prev, id] rfl
  have hsame := hsame.trans hsame'
  have htotal : (h₃.nodes prev).size + ((h₃.nodes id).size + (h₃.nodes next).size) =
      Layout.total (h.row [prev, id, next]) := by
    rw [hsame.size, hsame.size, hsame.size, hr.size prev hmem, hr.size id (by simp),
      hr.size next hmem']
    rfl
  obtain ⟨h', hrebin, hbecomes⟩ := hw₄.absorb_finish hall
    (fun y hy => by rw [nodes_setSize, nodes_setSize, hsame.used]; exact hr.free y hy) hr.left hr.right
    (by rw [← hr.allocated, ← hsame.diagnostics]; rfl)
  refine ⟨h', ?_, hbecomes⟩
  rw [coalesce, hprev, hnext]
  refine bind_eq_some_iff.mpr ⟨h₂, hunbin, bind_eq_some_iff.mpr ⟨h₃, hunbin', ?_⟩⟩
  rw [← hafter] at hrebin
  rw [if_neg (not_or.mpr ⟨hne, hne'⟩), htotal]
  exact hrebin

theorem coalesce {left right : List Nat} (hr : Released h front (left ++ id :: right) back h₁ id)
    (hleft : left = [] ∧ h₁.freePrev id = none ∨ ∃ p, left = [p] ∧ h₁.freePrev id = some p)
    (hright : right = [] ∧ h₁.freeNext id = none ∨ ∃ n, right = [n] ∧ h₁.freeNext id = some n) :
    ∃ first, (left ++ id :: right).head? = some first ∧
      ∃ h', h₁.coalesce id = some h' ∧ Becomes h h'
        (h.row front ++ [⟨(h.nodes first).offset, Layout.total (h.row (left ++ id :: right)), false⟩] ++
          h.row back) := by
  rcases hleft with ⟨rfl, hprev⟩ | ⟨prev, rfl, hprev⟩ <;>
    rcases hright with ⟨rfl, hnext⟩ | ⟨next, rfl, hnext⟩
  · exact ⟨id, rfl, hr.coalesce_none hprev hnext⟩
  · exact ⟨id, rfl, hr.coalesce_next hprev hnext⟩
  · exact ⟨prev, rfl, hr.coalesce_prev hprev hnext⟩
  · exact ⟨prev, rfl, hr.coalesce_both hprev hnext⟩

end Released

/-! ### Released blocks -/

theorem exists_left (h : O1Heap) (front : List Nat) :
    ((front.getLast?.filter fun i => !(h.nodes i).used) = none ∧
        ∀ c ∈ (h.row front).getLast?, c.used = true) ∨
      ∃ front' prev, front = front' ++ [prev] ∧ (h.nodes prev).used = false ∧
        (front.getLast?.filter fun i => !(h.nodes i).used) = some prev := by
  rcases eq_nil_or_concat' front with rfl | ⟨front', prev, rfl⟩
  · exact .inl ⟨rfl, nofun⟩
  · rw [List.getLast?_concat, filter_some, row_append, row_cons]
    cases hused : (h.nodes prev).used with
    | true => exact .inl ⟨rfl, by simp [row, blockOf, hused]⟩
    | false => exact .inr ⟨front', prev, rfl, hused, rfl⟩

theorem exists_right (h : O1Heap) (back : List Nat) :
    ((back.head?.filter fun i => !(h.nodes i).used) = none ∧
        ∀ c ∈ (h.row back).head?, c.used = true) ∨
      ∃ next back', back = next :: back' ∧ (h.nodes next).used = false ∧
        (back.head?.filter fun i => !(h.nodes i).used) = some next := by
  cases back with
  | nil => exact .inl ⟨rfl, nofun⟩
  | cons next back' =>
    rw [List.head?_cons, filter_some, row_cons]
    cases hused : (h.nodes next).used with
    | true => exact .inl ⟨rfl, by simp [blockOf, hused]⟩
    | false => exact .inr ⟨next, back', rfl, hused, rfl⟩

theorem Rep.neighbours {h : O1Heap} {front back : List Nat} {id : Nat}
    (hr : Rep h (front ++ id :: back)) :
    ∃ front' left right back', front = front' ++ left ∧ back = right ++ back' ∧
      (∀ y ∈ left ++ right, (h.nodes y).used = false) ∧
      (∀ c ∈ (h.row front').getLast?, c.used = true) ∧ (∀ c ∈ (h.row back').head?, c.used = true) ∧
      (left = [] ∧ (front.getLast?.filter fun i => !(h.nodes i).used) = none ∨
        ∃ p, left = [p] ∧ (front.getLast?.filter fun i => !(h.nodes i).used) = some p) ∧
      (right = [] ∧ (back.head?.filter fun i => !(h.nodes i).used) = none ∨
        ∃ n, right = [n] ∧ (back.head?.filter fun i => !(h.nodes i).used) = some n) := by
  have hlayout := hr.layout
  obtain ⟨front', left, hfront, hfree, hleft, hprev⟩ : ∃ front' left, front = front' ++ left ∧
      (∀ y ∈ left, (h.nodes y).used = false) ∧ (∀ c ∈ (h.row front').getLast?, c.used = true) ∧
      (left = [] ∧ (front.getLast?.filter fun i => !(h.nodes i).used) = none ∨
        ∃ p, left = [p] ∧ (front.getLast?.filter fun i => !(h.nodes i).used) = some p) := by
    rcases exists_left h front with ⟨hnone, hleft⟩ | ⟨front', prev, rfl, hfree, hsome⟩
    · exact ⟨front, [], (append_nil _).symm, nofun, hleft, .inl ⟨rfl, hnone⟩⟩
    · refine ⟨front', [prev], rfl, by simpa using hfree, ?_, .inr ⟨prev, rfl, hsome⟩⟩
      rw [append_assoc, row_append] at hlayout
      exact hlayout.left_used hfree
  obtain ⟨right, back', hback, hfree', hright, hnext⟩ : ∃ right back', back = right ++ back' ∧
      (∀ y ∈ right, (h.nodes y).used = false) ∧ (∀ c ∈ (h.row back').head?, c.used = true) ∧
      (right = [] ∧ (back.head?.filter fun i => !(h.nodes i).used) = none ∨
        ∃ n, right = [n] ∧ (back.head?.filter fun i => !(h.nodes i).used) = some n) := by
    rcases exists_right h back with ⟨hnone, hright⟩ | ⟨next, back', rfl, hfree, hsome⟩
    · exact ⟨[], back, rfl, nofun, hright, .inl ⟨rfl, hnone⟩⟩
    · refine ⟨[next], back', rfl, by simpa using hfree, ?_, .inr ⟨next, rfl, hsome⟩⟩
      rw [append_cons, row_append] at hlayout
      exact hlayout.right_used hfree
  refine ⟨front', left, right, back', hfront, hback, ?_, hleft, hright, hprev, hnext⟩
  exact fun y hy => (mem_append.mp hy).elim (hfree y) (hfree' y)

theorem usedTotal_le_of_mem (hb : b ∈ bs) (hused : b.used = true) : b.size ≤ usedTotal bs := by
  obtain ⟨l, r, rfl⟩ := append_of_mem hb
  rw [usedTotal_append, usedTotal_cons, if_pos hused]
  omega

theorem nodes_markFree (h : O1Heap) (id i : Nat) : (h.markFree id).nodes i =
    { h.nodes i with used := if i = id then false else (h.nodes i).used } :=
  nodes_setUsed (h.subAllocated (h.nodes id).size) id i false

section Release

variable {h : O1Heap} {front left right back : List Nat} {id address : Nat}

variable {ids : List Nat}

theorem usedTotal_of_free (hfree : ∀ y ∈ ids, (h.nodes y).used = false) :
    usedTotal (h.row ids) = 0 := by
  induction ids with
  | nil => rfl
  | cons x ids ih =>
    obtain ⟨hx, hids⟩ := forall_mem_cons.mp hfree
    rw [row_cons, usedTotal_cons, ih hids, if_neg (by rw [blockOf, hx]; exact Bool.false_ne_true)]

theorem Rep.released (hr : Rep h (front ++ (left ++ id :: right) ++ back))
    (hused : (h.nodes id).used = true) (hfree : ∀ y ∈ left ++ right, (h.nodes y).used = false)
    (hleft : ∀ c ∈ (h.row front).getLast?, c.used = true)
    (hright : ∀ c ∈ (h.row back).head?, c.used = true) :
    Released h front (left ++ id :: right) back (h.markFree id) id := by
  have hold : id ∈ left ++ id :: right := by simp
  have hothers : ∀ y ∈ left ++ id :: right, y ≠ id → (h.nodes y).used = false := by
    intro y hy hne
    refine hfree y ?_
    simp only [mem_append, mem_cons] at hy ⊢
    tauto
  have hunused : ∀ y ∈ left ++ id :: right, ((h.markFree id).nodes y).used = false := by
    intro y hy
    rw [nodes_markFree]
    exact ite_eq_left_iff.mpr fun hne => hothers y hy hne
  refine ⟨?_, hunused, ?_, hleft, hright, ?_⟩
  · have hw := hr.work.park hold hused
    rw [insert_empty_eq] at hw
    have hw' := (hw.setDiagnostics (d := (h.subAllocated (h.nodes id).size).diagnostics) rfl).setUsed
      (Set.mem_singleton id) false
    exact hw'.removeEntry (fun y hy _ => hunused y hy) hold
  · intro y _
    rw [nodes_markFree]
  have hle : (h.nodes id).size ≤ h.diagnostics.allocated := by
    rw [hr.allocated]
    exact usedTotal_le_of_mem (b := h.blockOf id) (mem_map_of_mem (by simp)) hused
  have htotal : usedTotal (h.row (left ++ id :: right)) = (h.nodes id).size := by
    rw [row_append, row_cons, usedTotal_append, usedTotal_cons,
      if_pos (show (h.blockOf id).used = true from hused),
      usedTotal_of_free fun y hy => hfree y (mem_append_left _ hy),
      usedTotal_of_free fun y hy => hfree y (mem_append_right _ hy), Nat.zero_add, Nat.add_zero]
    rfl
  rw [htotal]
  exact Nat.sub_add_cancel hle

theorem Rep.free_eq (hr : Rep h ids) (hid : id ∈ ids) (hused : (h.nodes id).used = true)
    (hoffset : (h.nodes id).offset = h.offsetOf address) (hmod : (h.nodes id).size % 256 = 0) :
    h.free address = (h.markFree id).coalesce id := by
  have hget : h.hashes.get (h.offsetOf address) = some id := by
    obtain ⟨lists, hs⟩ := hr.shape
    rw [← hoffset]
    exact hs.indexed hid (Set.notMem_empty id) hused
  have hvalid : h.invalidSize (h.nodes id).size = false := by
    have hmin := hr.min_size hid
    have hstop := hr.stop_le hid
    rw [invalidSize, Bool.or_eq_false_iff, Bool.or_eq_false_iff]
    exact ⟨⟨decide_eq_false (Nat.not_lt.mpr hmin), decide_eq_false (by omega)⟩,
      decide_eq_false (not_not.mpr hmod)⟩
  have hle : (h.nodes id).size ≤ h.diagnostics.allocated := by
    rw [hr.allocated]
    exact usedTotal_le_of_mem (b := h.blockOf id) (mem_map_of_mem hid) hused
  rw [free, hget]
  dsimp only
  rw [hused, hvalid, if_neg (Nat.not_lt.mpr hle)]
  rfl

theorem Rep.free_of_used (hr : Rep h (front ++ id :: back)) (hused : (h.nodes id).used = true)
    (hoffset : (h.nodes id).offset = h.offsetOf address) (hmod : (h.nodes id).size % 256 = 0) :
    ∃ h', h.free address = some h' ∧
      Becomes h h' (release (h.row (front ++ id :: back)) (h.offsetOf address)) := by
  rw [hr.free_eq (by simp) hused hoffset hmod]
  obtain ⟨front', left, right, back', rfl, rfl, hneighbours, hleft, hright, hprev, hnext⟩ := hr.neighbours
  have hids : front' ++ left ++ id :: (right ++ back') = front' ++ (left ++ id :: right) ++ back' := by
    simp only [append_assoc, cons_append]
  have hr' := hids ▸ hr
  have hreleased := hr'.released hused hneighbours hleft hright
  obtain ⟨lists, hs⟩ := hreleased.work.shape
  rw [← hids] at hs
  have hne : ∀ x ∈ front' ++ left ++ (right ++ back'), x ≠ id := by
    rintro x hx rfl
    have hnodup := hs.nodup
    rw [nodup_middle, nodup_cons] at hnodup
    exact hnodup.1 hx
  have hsame : ∀ x ∈ front' ++ left ++ (right ++ back'),
      ((h.markFree id).nodes x).used = (h.nodes x).used := by
    intro x hx
    rw [nodes_markFree, if_neg (hne x hx)]
  obtain ⟨first, hfirst, h', hcoalesce, hbecomes⟩ := hreleased.coalesce
    (by
      rw [hs.freePrev fun x hx => hne x (mem_append_left _ (mem_of_getLast? hx)),
        filter_used_congr fun x hx => hsame x (mem_append_left _ (mem_of_getLast? hx))]
      exact hprev)
    (by
      rw [hs.freeNext, filter_used_congr fun x hx => hsame x (mem_append_right _ (mem_of_head? hx))]
      exact hnext)
  refine ⟨h', hcoalesce, ?_⟩
  have hlayout := hr'.layout
  rw [row_append, row_append, row_append, row_cons] at hlayout
  have hmerged := hbecomes.layout
  rw [hids, row_append, row_append, row_append, row_cons, ← hoffset]
  rw [row_append h left, row_cons] at hbecomes hmerged
  have hfirst' : (h.row left ++ h.blockOf id :: h.row right).head? = some (h.blockOf first) := by
    rw [← row_cons, ← row_append, row, List.head?_map, hfirst]
    rfl
  have hrelease := release_part hlayout hfirst' (fun d hd => by
      obtain ⟨y, hy, rfl⟩ := mem_map.mp hd
      exact hneighbours y (mem_append_left _ hy))
    (fun d hd => by
      obtain ⟨y, hy, rfl⟩ := mem_map.mp hd
      exact hneighbours y (mem_append_right _ hy)) hmerged
  rw [show (h.nodes id).offset = (h.blockOf id).offset from rfl, hrelease]
  exact hbecomes

theorem Rep.free_refused (hr : Rep h ids)
    (hno : ¬ ∃ b ∈ h.row ids, b.used = true ∧ b.offset = h.offsetOf address ∧ b.size % 256 = 0) :
    h.free address = some h := by
  rw [free]
  cases hget : h.hashes.get (h.offsetOf address) with
  | none => rfl
  | some id =>
    dsimp only
    cases hused : (h.nodes id).used with
    | false => rfl
    | true =>
      obtain ⟨hid, -, hoffset⟩ := hr.indexed_iff.mp ⟨hget, hused⟩
      have hmod : (h.nodes id).size % fragmentSizeMin ≠ 0 := fun hmod =>
        hno ⟨h.blockOf id, mem_map_of_mem hid, hused, hoffset, hmod⟩
      have hinvalid : h.invalidSize (h.nodes id).size = true := by
        rw [invalidSize, decide_eq_true hmod, Bool.or_true]
      rw [hinvalid]
      rfl

theorem Rep.becomes_free (hr : Rep h ids) (address : Nat) :
    ∃ h', h.free address = some h' ∧ Becomes h h' (freeRow (h.row ids) (h.offsetOf address)) := by
  rw [freeRow]
  split_ifs with hex
  · obtain ⟨b, hb, hused, hoffset, hmod⟩ := hex
    obtain ⟨id, hid, rfl⟩ := mem_map.mp hb
    obtain ⟨front, back, rfl⟩ := append_of_mem hid
    exact hr.free_of_used hused hoffset hmod
  · exact ⟨h, hr.free_refused hex, rfl, rfl, ids, hr, rfl⟩

end Release

end Mwemu.O1Heap
