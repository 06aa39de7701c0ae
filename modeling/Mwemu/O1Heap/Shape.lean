import Mwemu.O1Heap.Bins

/-!
# The shape of the heap

The fragments form one list linked both ways, the free ones are in the bins of their sizes and the
used ones in the index. Operations take a few fragments out of this order while they work on them:
those are parked, and nothing is said of their bins and entries. Each elementary change of the heap
keeps the shape, with one lemma for it.
-/

namespace Mwemu.O1Heap

open Mwemu.Lib List Function OrdMap Nat

structure Shape (h : O1Heap) (ids : List Nat) (lists : Nat → List Nat) (parked : Set Nat) : Prop where
  nodup : ids.Nodup
  made : ∀ {id}, id ∈ ids → id < h.fresh
  linked : Linked (fun i => (h.nodes i).next) (fun i => (h.nodes i).prev) none ids none
  bins : Bins h lists
  binned : ∀ i id, id ∈ lists i ↔ id ∈ ids ∧ id ∉ parked ∧ (h.nodes id).used = false ∧
    binIndex (h.nodes id).size = i
  indexed : ∀ {id}, id ∈ ids → id ∉ parked → (h.nodes id).used = true →
    h.hashes.get (h.nodes id).offset = some id
  index : ∀ {o id}, h.hashes.get o = some id → id < h.fresh ∧ (h.nodes id).offset = o ∧
    ((h.nodes id).used = true → id ∈ ids ∨ id ∈ parked)

theorem binIndex_lt {size : Nat} (hsize : size < 2 ^ 32) : binIndex size < 64 := by
  rw [binIndex, log2Floor]
  by_cases hzero : size / fragmentSizeMin = 0
  · rw [hzero]
    decide
  · rw [log2_lt hzero]
    exact lt_of_le_of_lt (div_le_self _ _) (lt_trans hsize (by decide))

/-! ### Elementary changes, node by node -/

section Nodes

variable (h : O1Heap) (id i : Nat)

theorem nodes_setSize (size : Nat) : (h.setSize id size).nodes i =
    { h.nodes i with size := if i = id then size % 2 ^ 32 else (h.nodes i).size } := by
  rw [setSize, modify]
  dsimp only
  split_ifs <;> rfl

theorem nodes_setUsed (used : Bool) : (h.setUsed id used).nodes i =
    { h.nodes i with used := if i = id then used else (h.nodes i).used } := by
  rw [setUsed, modify]
  dsimp only
  split_ifs <;> rfl

theorem nodes_linkNext (after : Option Nat) : (h.linkNext id after).nodes i = { h.nodes i with
      next := if i = id then after else (h.nodes i).next
      prev := if after = some i then some id else (h.nodes i).prev } := by
  rw [linkNext]
  dsimp only
  split_ifs <;> rfl

theorem nodes_insertAfter (offset size : Nat) (after : Option Nat) (hi : i ≠ h.fresh) :
    (h.insertAfter id offset size after).nodes i = { h.nodes i with
        next := if i = id then some h.fresh else (h.nodes i).next
        prev := if after = some i then some h.fresh else (h.nodes i).prev } := by
  rw [insertAfter]
  dsimp only
  rw [if_neg hi]
  split_ifs <;> rfl

theorem nodes_insertAfter_fresh (offset size : Nat) (after : Option Nat) :
    (h.insertAfter id offset size after).nodes h.fresh =
      { Fragment.new (offset % 2 ^ 32) (size % 2 ^ 32) with next := after, prev := some id } :=
  if_pos rfl

end Nodes

theorem Bins.of_eq {h h' : O1Heap} {lists : Nat → List Nat} (hb : Bins h lists)
    (hbins : h'.bins = h.bins) (hmask : h'.nonemptyBinMask = h.nonemptyBinMask)
    (hfresh : h.fresh ≤ h'.fresh)
    (hlinks : ∀ i < h.fresh, (h'.nodes i).nextFree = (h.nodes i).nextFree ∧
      (h'.nodes i).prevFree = (h.nodes i).prevFree) : Bins h' lists where
  head i := by rw [hbins, hb.head]
  linked i := (hb.linked i).congr fun x hx => hlinks x (hb.made hx)
  nodup := hb.nodup
  disjoint := hb.disjoint
  made hx := lt_of_lt_of_le (hb.made hx) hfresh
  small := hb.small
  mask i := by rw [hmask, hb.mask]

namespace Shape

variable {h h' : O1Heap} {ids : List Nat} {lists : Nat → List Nat} {parked : Set Nat} {id : Nat}

/-! ### Links and held nodes -/

theorem held (hs : Shape h ids lists parked) (hid : id ∈ ids) (hpark : id ∉ parked) :
    id ∈ h.held := by
  refine mem_held (S := fun x => (∃ i, x ∈ lists i) ∨ x ∈ ids ∧ x ∉ parked ∧
    (h.nodes x).used = true) ?_ ?_
  · rintro x (⟨i, hx⟩ | ⟨hx, hxp, hused⟩)
    · refine ⟨hs.bins.made hx, (hs.bins.link_of_mem hx).imp_right ?_⟩
      rintro ⟨y, hy, hlink⟩
      exact ⟨y, .inl ⟨i, hy⟩, .inr hlink⟩
    · exact ⟨hs.made hx, .inl (rooted_of_hashes (hs.indexed hx hxp hused))⟩
  · by_cases hused : (h.nodes id).used = true
    · exact .inr ⟨hid, hpark, hused⟩
    · rw [Bool.not_eq_true] at hused
      exact .inl ⟨_, (hs.binned _ id).mpr ⟨hid, hpark, hused, rfl⟩⟩

/-! ### Bins -/

theorem unbin (hs : Shape h ids lists parked) (hid : id ∈ ids) (hpark : id ∉ parked)
    (hfree : (h.nodes id).used = false) (hsize : fragmentSizeMin ≤ (h.nodes id).size) :
    ∃ h', h.unbin id = some h' ∧ SameCore h h' ∧
      ∃ lists', Shape h' ids lists' (insert id parked) := by
  have hmem := (hs.binned _ id).mpr ⟨hid, hpark, hfree, rfl⟩
  obtain ⟨h', hunbin, hsame, hbins⟩ := hs.bins.unbin hmem hsize
  refine ⟨h', hunbin, hsame, _, ⟨hs.nodup, ?_, ?_, hbins, ?_, ?_, ?_⟩⟩
  · rw [hsame.fresh]
    exact hs.made
  · exact hs.linked.congr fun x _ => ⟨hsame.next x, hsame.prev x⟩
  · intro i x
    rw [hsame.used, hsame.size, Set.mem_insert_iff, not_or]
    by_cases hi : i = binIndex (h.nodes id).size
    · rw [hi, update_self, (hs.bins.nodup _).mem_erase_iff, hs.binned]
      tauto
    rw [update_of_ne hi, hs.binned]
    constructor
    · rintro ⟨hx, hxp, hxu, rfl⟩
      exact ⟨hx, ⟨fun heq => hi (by rw [heq]), hxp⟩, hxu, rfl⟩
    · rintro ⟨hx, ⟨-, hxp⟩, hxu, hxi⟩
      exact ⟨hx, hxp, hxu, hxi⟩
  · intro x hx hxp hxu
    rw [hsame.hashes, hsame.offset]
    rw [hsame.used] at hxu
    exact hs.indexed hx (fun h => hxp (Set.mem_insert_of_mem _ h)) hxu
  · intro o x hget
    rw [hsame.hashes] at hget
    obtain ⟨hlt, hoff, hin⟩ := hs.index hget
    rw [hsame.fresh, hsame.offset, hsame.used]
    exact ⟨hlt, hoff, fun hu => (hin hu).imp_right (Set.mem_insert_of_mem _)⟩

theorem rebin (hs : Shape h ids lists parked) (hid : id ∈ ids) (hpark : id ∈ parked)
    (hfree : (h.nodes id).used = false) (hsize : fragmentSizeMin ≤ (h.nodes id).size)
    (hsmall : binIndex (h.nodes id).size < 64) : ∃ h', h.rebin id = some h' ∧ SameCore h h' ∧
      ∃ lists', Shape h' ids lists' (parked \ {id}) := by
  have hnew : ∀ i, id ∉ lists i := fun i hmem => ((hs.binned i id).mp hmem).2.1 hpark
  obtain ⟨h', hrebin, hsame, hbins⟩ := hs.bins.rebin hnew (hs.made hid) hsize hsmall
  refine ⟨h', hrebin, hsame, _, ⟨hs.nodup, ?_, ?_, hbins, ?_, ?_, ?_⟩⟩
  · rw [hsame.fresh]
    exact hs.made
  · exact hs.linked.congr fun x _ => ⟨hsame.next x, hsame.prev x⟩
  · intro i x
    rw [hsame.used, hsame.size, Set.mem_sdiff, Set.mem_singleton_iff, not_and_not_right]
    have hcons : x ∈ Function.update lists (binIndex (h.nodes id).size)
        (id :: lists (binIndex (h.nodes id).size)) i ↔
          x = id ∧ i = binIndex (h.nodes id).size ∨ x ∈ lists i := by
      by_cases hi : i = binIndex (h.nodes id).size
      · rw [hi, update_self, mem_cons]
        tauto
      · rw [update_of_ne hi]
        tauto
    rw [hcons, hs.binned]
    constructor
    · rintro (⟨rfl, rfl⟩ | ⟨hx, hxp, hxu, rfl⟩)
      · exact ⟨hid, fun _ => rfl, hfree, rfl⟩
      · exact ⟨hx, fun h => absurd h hxp, hxu, rfl⟩
    · rintro ⟨hx, hxp, hxu, rfl⟩
      by_cases hxid : x = id
      · exact .inl ⟨hxid, by rw [hxid]⟩
      · exact .inr ⟨hx, fun h => hxid (hxp h), hxu, rfl⟩
  · intro x hx hxp hxu
    rw [hsame.used] at hxu
    rw [hsame.hashes, hsame.offset]
    refine hs.indexed hx (fun h => hxp ⟨h, fun heq => ?_⟩) hxu
    rw [Set.mem_singleton_iff.mp heq, hfree] at hxu
    cases hxu
  · intro o x hget
    rw [hsame.hashes] at hget
    obtain ⟨hlt, hoff, hin⟩ := hs.index hget
    rw [hsame.fresh, hsame.offset, hsame.used]
    refine ⟨hlt, hoff, fun hu => (hin hu).imp_right fun h => ⟨h, fun heq => ?_⟩⟩
    rw [Set.mem_singleton_iff.mp heq, hfree] at hu
    cases hu

/-! ### Parked nodes -/

theorem park (hs : Shape h ids lists parked) (hused : (h.nodes id).used = true) :
    Shape h ids lists (insert id parked) where
  nodup := hs.nodup
  made := hs.made
  linked := hs.linked
  bins := hs.bins
  binned i x := by
    rw [hs.binned, Set.mem_insert_iff, not_or]
    constructor
    · rintro ⟨hx, hxp, hxu, hxi⟩
      refine ⟨hx, ⟨?_, hxp⟩, hxu, hxi⟩
      rintro rfl
      rw [hused] at hxu
      cases hxu
    · rintro ⟨hx, ⟨-, hxp⟩, hxu, hxi⟩
      exact ⟨hx, hxp, hxu, hxi⟩
  indexed hx hxp := hs.indexed hx fun h => hxp (Set.mem_insert_of_mem _ h)
  index hget := by
    obtain ⟨hlt, hoff, hin⟩ := hs.index hget
    exact ⟨hlt, hoff, fun hu => (hin hu).imp_right (Set.mem_insert_of_mem _)⟩

theorem settle (hs : Shape h ids lists parked)
    (hdone : ∀ x ∈ parked, x ∈ ids ∧ (h.nodes x).used = true ∧
      h.hashes.get (h.nodes x).offset = some x ∨ x ∉ ids ∧ (h.nodes x).used = false) :
    Shape h ids lists ∅ where
  nodup := hs.nodup
  made := hs.made
  linked := hs.linked
  bins := hs.bins
  binned i x := by
    rw [hs.binned]
    refine and_congr_right fun hx => ⟨fun h => ⟨Set.notMem_empty x, h.2⟩, fun h => ⟨fun hxp => ?_, h.2⟩⟩
    rcases hdone x hxp with ⟨-, hused, -⟩ | ⟨hout, -⟩
    · rw [hused] at h
      cases h.2.1
    · exact hout hx
  indexed {x} hx _ hxu := by
    by_cases hxp : x ∈ parked
    · rcases hdone x hxp with ⟨-, -, hget⟩ | ⟨hout, -⟩
      · exact hget
      · exact absurd hx hout
    · exact hs.indexed hx hxp hxu
  index {o x} hget := by
    obtain ⟨hlt, hoff, hin⟩ := hs.index hget
    refine ⟨hlt, hoff, fun hu => .inl ?_⟩
    refine (hin hu).elim id fun hxp => ?_
    rcases hdone x hxp with ⟨hin, -, -⟩ | ⟨-, hunused⟩
    · exact hin
    · rw [hunused] at hu
      cases hu

/-! ### Fields of a parked node -/

section

variable (hs : Shape h ids lists parked)
include hs

theorem of_parked (hbins : h'.bins = h.bins)
    (hmask : h'.nonemptyBinMask = h.nonemptyBinMask) (hfresh : h'.fresh = h.fresh)
    (hhashes : h'.hashes = h.hashes)
    (hlinks : ∀ i, (h'.nodes i).next = (h.nodes i).next ∧ (h'.nodes i).prev = (h.nodes i).prev ∧
      (h'.nodes i).nextFree = (h.nodes i).nextFree ∧ (h'.nodes i).prevFree = (h.nodes i).prevFree ∧
      (h'.nodes i).offset = (h.nodes i).offset)
    (hblock : ∀ i, i ∉ parked → (h'.nodes i).size = (h.nodes i).size ∧
      (h'.nodes i).used = (h.nodes i).used) : Shape h' ids lists parked where
  nodup := hs.nodup
  made hid := by
    rw [hfresh]
    exact hs.made hid
  linked := hs.linked.congr fun i _ => ⟨(hlinks i).1, (hlinks i).2.1⟩
  bins := hs.bins.of_eq hbins hmask (le_of_eq hfresh.symm)
    fun i _ => ⟨(hlinks i).2.2.1, (hlinks i).2.2.2.1⟩
  binned i x := by
    rw [hs.binned]
    refine and_congr_right fun _ => and_congr_right fun hxp => ?_
    rw [(hblock x hxp).1, (hblock x hxp).2]
  indexed {x} hx hxp hxu := by
    rw [(hblock x hxp).2] at hxu
    rw [hhashes, (hlinks x).2.2.2.2]
    exact hs.indexed hx hxp hxu
  index {o x} hget := by
    rw [hhashes] at hget
    obtain ⟨hlt, hoff, hin⟩ := hs.index hget
    rw [hfresh, (hlinks x).2.2.2.2]
    refine ⟨hlt, hoff, fun hu => ?_⟩
    by_cases hxp : x ∈ parked
    · exact .inr hxp
    · rw [(hblock x hxp).2] at hu
      exact hin hu

theorem setSize (hpark : id ∈ parked) (size : Nat) :
    Shape (h.setSize id size) ids lists parked := by
  refine hs.of_parked rfl rfl rfl rfl (fun i => ?_) fun i hi => ?_
  · rw [nodes_setSize]
    exact ⟨rfl, rfl, rfl, rfl, rfl⟩
  · rw [nodes_setSize, if_neg fun heq : i = id => hi (heq ▸ hpark)]
    exact ⟨rfl, rfl⟩

theorem setUsed (hpark : id ∈ parked) (used : Bool) :
    Shape (h.setUsed id used) ids lists parked := by
  refine hs.of_parked rfl rfl rfl rfl (fun i => ?_) fun i hi => ?_
  · rw [nodes_setUsed]
    exact ⟨rfl, rfl, rfl, rfl, rfl⟩
  · rw [nodes_setUsed, if_neg fun heq : i = id => hi (heq ▸ hpark)]
    exact ⟨rfl, rfl⟩

theorem of_diagnostics (d : Diagnostics) : Shape { h with diagnostics := d } ids lists parked :=
  ⟨hs.nodup, hs.made, hs.linked, hs.bins.of_eq rfl rfl (le_refl _) fun _ _ => ⟨rfl, rfl⟩,
    hs.binned, hs.indexed, hs.index⟩

end

/-! ### The index -/

theorem remove (hs : Shape h ids lists parked) {o : Nat}
    (ho : ∀ x ∈ ids, x ∉ parked → (h.nodes x).used = true → (h.nodes x).offset ≠ o) :
    Shape { h with hashes := h.hashes.remove o } ids lists parked where
  nodup := hs.nodup
  made := hs.made
  linked := hs.linked
  bins := hs.bins.of_eq rfl rfl (le_refl _) fun _ _ => ⟨rfl, rfl⟩
  binned := hs.binned
  indexed {x} hx hxp hxu := by
    rw [get_remove_of_ne (ho x hx hxp hxu)]
    exact hs.indexed hx hxp hxu
  index {o' x} hget := by
    rw [get_eq_some, mem_remove, ← get_eq_some] at hget
    exact hs.index hget.1

theorem insert (hs : Shape h ids lists parked) (hmade : id < h.fresh)
    (hin : (h.nodes id).used = true → id ∈ ids ∨ id ∈ parked)
    (ho : ∀ x ∈ ids, x ∉ parked → (h.nodes x).used = true →
      (h.nodes x).offset = (h.nodes id).offset → x = id) :
    Shape { h with hashes := h.hashes.insert (h.nodes id).offset id } ids lists parked where
  nodup := hs.nodup
  made := hs.made
  linked := hs.linked
  bins := hs.bins.of_eq rfl rfl (le_refl _) fun _ _ => ⟨rfl, rfl⟩
  binned := hs.binned
  indexed {x} hx hxp hxu := by
    by_cases hoff : (h.nodes x).offset = (h.nodes id).offset
    · obtain rfl := ho x hx hxp hxu hoff
      exact get_insert_self _ _
    · rw [get_insert_of_ne hoff]
      exact hs.indexed hx hxp hxu
  index {o x} hget := by
    by_cases hoff : o = (h.nodes id).offset
    · subst hoff
      rw [get_insert_self] at hget
      cases hget
      exact ⟨hmade, rfl, hin⟩
    · rw [get_insert_of_ne hoff] at hget
      exact hs.index hget

/-! ### The list -/

section List

variable {front rest back : List Nat}

section

variable (hs : Shape h (front ++ id :: rest ++ back) lists parked)
include hs

theorem apart : back.Nodup ∧ (∀ x ∈ front, x ≠ id ∧ x ∉ back) ∧ ∀ x ∈ back, x ≠ id := by
  have hnodup := hs.nodup
  simp only [nodup_append, nodup_cons, mem_append, mem_cons] at hnodup
  obtain ⟨⟨-, -, hfront⟩, hback, hapart⟩ := hnodup
  refine ⟨hback, fun x hx => ⟨hfront x hx id (.inl rfl), fun hx' => ?_⟩, fun x hx => ?_⟩
  · exact hapart x (.inl hx) x hx' rfl
  · exact (hapart id (.inr (.inl rfl)) x hx).symm

theorem relist {news : List Nat}
    {parked' : Set Nat} (hrest : ∀ x ∈ rest, x ∈ parked) (hbins : h'.bins = h.bins)
    (hmask : h'.nonemptyBinMask = h.nonemptyBinMask) (hfresh : h.fresh ≤ h'.fresh)
    (hfree : ∀ i < h.fresh, (h'.nodes i).nextFree = (h.nodes i).nextFree ∧
      (h'.nodes i).prevFree = (h.nodes i).prevFree)
    (hblock : ∀ i < h.fresh, (h'.nodes i).offset = (h.nodes i).offset ∧
      (h'.nodes i).size = (h.nodes i).size ∧ (h'.nodes i).used = (h.nodes i).used)
    (hnews : ∀ x ∈ news, h.fresh ≤ x ∧ x < h'.fresh ∧ x ∈ parked') (hnodup : news.Nodup)
    (hparked : ∀ i < h.fresh, i ∈ parked' ↔ i ∈ parked)
    (hlinked : Linked (fun i => (h'.nodes i).next) (fun i => (h'.nodes i).prev) none
      (front ++ id :: news ++ back) none)
    (hindexed : ∀ x ∈ front ++ id :: back, x ∉ parked → (h.nodes x).used = true →
      h'.hashes.get (h.nodes x).offset = h.hashes.get (h.nodes x).offset)
    (hindex : ∀ {o x}, h'.hashes.get o = some x → h.hashes.get o = some x ∨
      x ∈ news ∧ (h'.nodes x).offset = o) :
    Shape h' (front ++ id :: news ++ back) lists parked' := by
  have hold : ∀ x ∈ front ++ id :: back, x ∈ front ++ id :: rest ++ back := by
    intro x hx
    simp only [mem_append, mem_cons] at hx ⊢
    tauto
  have hlt : ∀ x ∈ front ++ id :: back, x < h.fresh := fun x hx => hs.made (hold x hx)
  have hmem : ∀ x, x ∈ front ++ id :: news ++ back ↔ x ∈ front ++ id :: back ∨ x ∈ news := by
    intro x
    simp only [mem_append, mem_cons]
    tauto
  have hkept : ∀ x < h.fresh, x ∉ parked →
      (x ∈ front ++ id :: news ++ back ↔ x ∈ front ++ id :: rest ++ back) := by
    intro x hx hxp
    have hnew : x ∉ news := fun h => not_lt.mpr (hnews x h).1 hx
    have hgone : x ∉ rest := fun h => hxp (hrest x h)
    simp only [mem_append, mem_cons]
    tauto
  refine ⟨?_, ?_, hlinked, hs.bins.of_eq hbins hmask hfresh hfree, ?_, ?_, ?_⟩
  · have hsub : (front ++ id :: back).Sublist (front ++ id :: rest ++ back) := by
      rw [append_assoc]
      exact ((sublist_append_right rest back).cons_cons id).append_left front
    have hperm : (front ++ id :: news ++ back).Perm (front ++ id :: back ++ news) := by
      rw [append_assoc, append_assoc]
      exact (perm_append_comm.cons id).append_left front
    rw [hperm.nodup_iff, nodup_append]
    refine ⟨hs.nodup.sublist hsub, hnodup, fun x hx y hy => ?_⟩
    exact Nat.ne_of_lt (Nat.lt_of_lt_of_le (hlt x hx) (hnews y hy).1)
  · intro x hx
    rcases (hmem x).mp hx with hx | hx
    · exact lt_of_lt_of_le (hlt x hx) hfresh
    · exact (hnews x hx).2.1
  · intro i x
    by_cases hx : x < h.fresh
    · rw [hs.binned, (hblock x hx).2.1, (hblock x hx).2.2, hparked x hx]
      constructor
      · rintro ⟨hx', hxp, hxu⟩
        exact ⟨(hkept x hx hxp).mpr hx', hxp, hxu⟩
      · rintro ⟨hx', hxp, hxu⟩
        exact ⟨(hkept x hx hxp).mp hx', hxp, hxu⟩
    · constructor
      · intro hx'
        exact absurd (hs.bins.made hx') hx
      · rintro ⟨hx', hxp, -⟩
        rcases (hmem x).mp hx' with hx' | hx'
        · exact absurd (hlt x hx') hx
        · exact absurd (hnews x hx').2.2 hxp
  · intro x hx hxp hxu
    rcases (hmem x).mp hx with hx | hx
    · have hx' := hlt x hx
      rw [hparked x hx'] at hxp
      rw [(hblock x hx').2.2] at hxu
      rw [(hblock x hx').1, hindexed x hx hxp hxu]
      exact hs.indexed (hold x hx) hxp hxu
    · exact absurd (hnews x hx).2.2 hxp
  · intro o x hget
    rcases hindex hget with hget | ⟨hx, hoff⟩
    · obtain ⟨hx, hoff, hin⟩ := hs.index hget
      rw [(hblock x hx).1, (hblock x hx).2.2, hparked x hx]
      refine ⟨lt_of_lt_of_le hx hfresh, hoff, fun hu => ?_⟩
      by_cases hxp : x ∈ parked
      · exact .inr hxp
      · exact .inl ((hkept x hx hxp).mpr ((hin hu).resolve_right hxp))
    · exact ⟨(hnews x hx).2.1, hoff, fun _ => .inr (hnews x hx).2.2⟩

theorem prev_eq : (h.nodes id).prev = front.getLast? := by
  have hlinked := hs.linked
  rw [append_assoc] at hlinked
  exact hlinked.at_split.2

theorem linked_relist {news : List Nat}
    (hmid : Linked (fun i => (h'.nodes i).next) (fun i => (h'.nodes i).prev) (h.nodes id).prev
      (id :: news) back.head?)
    (hnext : ∀ i < h.fresh, i ≠ id → (h'.nodes i).next = (h.nodes i).next)
    (hprev : ∀ i < h.fresh, (h'.nodes i).prev =
      if back.head? = some i then (id :: news).getLast? else (h.nodes i).prev) :
    Linked (fun i => (h'.nodes i).next) (fun i => (h'.nodes i).prev) none
      (front ++ id :: news ++ back) none := by
  obtain ⟨hback, hfront, hid⟩ := hs.apart
  have hlt : ∀ x ∈ front ++ back, x < h.fresh := fun x hx => hs.made (by
    simp only [mem_append, mem_cons] at hx ⊢
    tauto)
  rw [hs.prev_eq] at hmid
  refine hs.linked.splice hmid rfl (cons_ne_nil _ _) ?_ ?_ ?_ ?_
  · intro x hx
    have hx' := hlt x (mem_append_left _ hx)
    refine ⟨hnext x hx' (hfront x hx).1, ?_⟩
    rw [hprev x hx', if_neg fun hfirst => (hfront x hx).2 (mem_of_head? hfirst)]
  · intro x hx
    exact hnext x (hlt x (mem_append_right _ hx)) (hid x hx)
  · intro x hx
    rw [hprev x (hlt x (mem_append_right _ (mem_of_mem_tail hx))),
      if_neg fun hfirst => head_notMem_tail hback hfirst hx]
  · intro x hx
    rw [hprev x (hlt x (mem_append_right _ (mem_of_head? hx))), if_pos (Option.mem_def.mp hx)]

theorem linkNext (hrest : ∀ x ∈ rest, x ∈ parked) :
    Shape (h.linkNext id back.head?) (front ++ [id] ++ back) lists parked := by
  obtain ⟨-, -, hid⟩ := hs.apart
  refine hs.relist hrest rfl rfl (le_refl _) (fun i _ => ?_) (fun i _ => ?_) nofun nodup_nil
    (fun _ _ => Iff.rfl) (hs.linked_relist ⟨?_, ?_, trivial⟩ ?_ ?_) (fun _ _ _ _ => rfl) .inl
  · rw [nodes_linkNext]
    exact ⟨rfl, rfl⟩
  · rw [nodes_linkNext]
    exact ⟨rfl, rfl, rfl⟩
  · beta_reduce
    rw [nodes_linkNext, if_neg fun hfirst => hid id (mem_of_head? hfirst) rfl]
  · beta_reduce
    rw [nodes_linkNext, if_pos rfl]
    rfl
  · intro i _ hi
    rw [nodes_linkNext, if_neg hi]
  · intro i _
    rw [nodes_linkNext]
    rfl

theorem insertAfter (hrest : ∀ x ∈ rest, x ∈ parked) {offset : Nat} (size : Nat)
    (hoffset : ∀ x ∈ front ++ id :: back, x ∉ parked → (h.nodes x).used = true →
      (h.nodes x).offset ≠ offset % 2 ^ 32) :
    Shape (h.insertAfter id offset size back.head?) (front ++ [id, h.fresh] ++ back) lists
      (Insert.insert h.fresh parked) := by
  obtain ⟨-, -, hid⟩ := hs.apart
  have hidLt : id < h.fresh := hs.made (by simp)
  have hne : ∀ i < h.fresh, i ≠ h.fresh := fun i hi => Nat.ne_of_lt hi
  refine hs.relist hrest rfl rfl (le_succ _) (fun i hi => ?_) (fun i hi => ?_) ?_
    (nodup_singleton _) (fun i hi => ?_)
    (hs.linked_relist ⟨?_, ?_, ?_, ?_, trivial⟩ ?_ ?_) ?_ ?_
  · rw [nodes_insertAfter _ _ _ _ _ _ (hne i hi)]
    exact ⟨rfl, rfl⟩
  · rw [nodes_insertAfter _ _ _ _ _ _ (hne i hi)]
    exact ⟨rfl, rfl, rfl⟩
  · intro x hx
    rw [mem_singleton.mp hx]
    exact ⟨le_refl _, lt_succ_self _, Set.mem_insert _ _⟩
  · rw [Set.mem_insert_iff, or_iff_right (hne i hi)]
  · beta_reduce
    rw [nodes_insertAfter _ _ _ _ _ _ (hne id hidLt),
      if_neg fun hfirst => hid id (mem_of_head? hfirst) rfl]
  · beta_reduce
    rw [nodes_insertAfter _ _ _ _ _ _ (hne id hidLt), if_pos rfl]
    rfl
  · beta_reduce
    rw [nodes_insertAfter_fresh]
  · beta_reduce
    rw [nodes_insertAfter_fresh]
    rfl
  · intro i hi hne'
    rw [nodes_insertAfter _ _ _ _ _ _ (hne i hi), if_neg hne']
  · intro i hi
    rw [nodes_insertAfter _ _ _ _ _ _ (hne i hi)]
    rfl
  · intro x hx hxp hxu
    exact get_insert_of_ne (hoffset x hx hxp hxu)
  · intro o x hget
    by_cases ho : o = offset % 2 ^ 32
    · subst ho
      rw [O1Heap.insertAfter, get_insert_self] at hget
      cases hget
      exact .inr ⟨mem_singleton_self _, by rw [nodes_insertAfter_fresh]; rfl⟩
    · exact .inl ((get_insert_of_ne ho).symm.trans hget)

theorem splitOff
    (hparked : ∀ x ∈ parked, x < h.fresh) (hid : id ∈ parked) (hrest : ∀ x ∈ rest, x ∈ parked)
    (newSize : Nat) {offset leftover : Nat} (hmin : fragmentSizeMin ≤ leftover)
    (hlt : leftover < 2 ^ 32)
    (hoffset : ∀ x ∈ front ++ id :: back, x ∉ parked → (h.nodes x).used = true →
      (h.nodes x).offset ≠ offset % 2 ^ 32) :
    ∃ h', h.splitOff id newSize offset leftover back.head? = some h' ∧
      SameCore ((h.setSize id newSize).insertAfter id offset leftover back.head?) h' ∧
      ∃ lists', Shape h' (front ++ [id, h.fresh] ++ back) lists' parked := by
  have hs' : Shape ((h.setSize id newSize).insertAfter id offset leftover back.head?)
      (front ++ [id, h.fresh] ++ back) lists (Insert.insert h.fresh parked) := by
    refine (hs.setSize hid newSize).insertAfter hrest leftover fun x hx hxp hxu => ?_
    rw [nodes_setSize] at hxu ⊢
    exact hoffset x hx hxp hxu
  have hnode := nodes_insertAfter_fresh (h.setSize id newSize) id offset leftover back.head?
  have hsize : (((h.setSize id newSize).insertAfter id offset leftover back.head?).nodes
      h.fresh).size = leftover :=
    (congrArg Fragment.size hnode).trans (mod_eq_of_lt hlt)
  obtain ⟨h', hrebin, hsame, lists', hs''⟩ := hs'.rebin
    (show h.fresh ∈ front ++ [id, h.fresh] ++ back by simp) (Set.mem_insert _ _)
    (congrArg Fragment.used hnode) (by rw [hsize]; exact hmin)
    (by rw [hsize]; exact binIndex_lt hlt)
  have hfresh : h.fresh ∉ parked := fun hmem => lt_irrefl _ (hparked _ hmem)
  rw [Set.insert_sdiff_self_of_notMem hfresh] at hs''
  exact ⟨h', hrebin, hsame, lists', hs''⟩

end

end List

end Shape

end Mwemu.O1Heap
