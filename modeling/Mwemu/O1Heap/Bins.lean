import Mwemu.Lib.Linked
import Mwemu.O1Heap.Basic

/-!
# The free lists

Each bin is the head of a list of free nodes that is linked both ways, and the mask has a bit for
each bin that is not empty. A node is put in front of its list and taken out anywhere. Taking it out
needs the node before it, which its list holds.
-/

namespace Mwemu.O1Heap

open Mwemu.Lib List Function

def Fragment.core (f : Fragment) : Fragment :=
  { f with nextFree := none, prevFree := none }

/-- Only the free lists differ. -/
structure SameCore (h h' : O1Heap) : Prop where
  base : h'.base = h.base
  hashes : h'.hashes = h.hashes
  diagnostics : h'.diagnostics = h.diagnostics
  fresh : h'.fresh = h.fresh
  core : ∀ i, (h'.nodes i).core = (h.nodes i).core

namespace SameCore

variable {h h' h'' : O1Heap}

theorem refl (h : O1Heap) : SameCore h h :=
  ⟨rfl, rfl, rfl, rfl, fun _ => rfl⟩

section

variable (hs : SameCore h h')
include hs

theorem trans (hs' : SameCore h' h'') : SameCore h h'' :=
  ⟨hs'.base.trans hs.base, hs'.hashes.trans hs.hashes, hs'.diagnostics.trans hs.diagnostics,
    hs'.fresh.trans hs.fresh, fun i => (hs'.core i).trans (hs.core i)⟩

theorem offset (i : Nat) : (h'.nodes i).offset = (h.nodes i).offset :=
  show (h'.nodes i).core.offset = (h.nodes i).core.offset from congrArg Fragment.offset (hs.core i)

theorem size (i : Nat) : (h'.nodes i).size = (h.nodes i).size :=
  show (h'.nodes i).core.size = (h.nodes i).core.size from congrArg Fragment.size (hs.core i)

theorem used (i : Nat) : (h'.nodes i).used = (h.nodes i).used :=
  show (h'.nodes i).core.used = (h.nodes i).core.used from congrArg Fragment.used (hs.core i)

theorem next (i : Nat) : (h'.nodes i).next = (h.nodes i).next :=
  show (h'.nodes i).core.next = (h.nodes i).core.next from congrArg Fragment.next (hs.core i)

theorem prev (i : Nat) : (h'.nodes i).prev = (h.nodes i).prev :=
  show (h'.nodes i).core.prev = (h.nodes i).core.prev from congrArg Fragment.prev (hs.core i)

end

end SameCore

/-! ### Nodes that are held -/

variable {h : O1Heap} {x : Nat}

theorem mem_held {S : Nat → Prop} (hS : ∀ x, S x → x < h.fresh ∧ (h.rooted x = true ∨
      ∃ y, S y ∧ ((h.nodes y).next = some x ∨ (h.nodes y).nextFree = some x))) (hx : S x) :
    x ∈ h.held := by
  have hstep : ∀ l : List Nat, (∀ y, S y → y ∈ l) → ∀ y, S y → y ∈ h.holdStep l := by
    intro l hl y hy
    refine mem_filter.mpr ⟨hl y hy, ?_⟩
    rcases (hS y hy).2 with hroot | ⟨z, hz, hlink⟩
    · rw [hroot, Bool.true_or]
    · rw [Bool.or_eq_true, any_eq_true]
      refine .inr ⟨z, hl z hz, ?_⟩
      rw [Bool.or_eq_true, beq_iff_eq, beq_iff_eq]
      exact hlink
  have hiterate : ∀ n (l : List Nat), (∀ y, S y → y ∈ l) → ∀ y, S y → y ∈ h.holdStep^[n] l := by
    intro n
    induction n with
    | zero => exact fun l hl => hl
    | succ n ih => exact fun l hl => ih _ (hstep l hl)
  exact hiterate h.fresh _ (fun y hy => mem_range.mpr (hS y hy).1) x hx

variable {id : Nat}

theorem upgrade_eq_some (hheld : id ∈ h.held) : h.upgrade (some id) = some id := by
  rw [upgrade, Option.filter_some, if_pos (contains_iff_mem.mpr hheld)]

theorem rooted_of_hashes {o : Nat} (hget : h.hashes.get o = some id) : h.rooted id = true := by
  rw [rooted, Bool.or_eq_true, any_eq_true]
  exact .inl ⟨(o, id), OrdMap.get_eq_some.mp hget, beq_self_eq_true id⟩

variable {i : Nat}

theorem rooted_of_bins (hi : i < numBinsMax) (hbin : h.bins i = some id) : h.rooted id = true := by
  rw [rooted, Bool.or_eq_true, any_eq_true, any_eq_true]
  exact .inr ⟨i, mem_range.mpr hi, by rw [hbin, beq_self_eq_true]⟩

/-! ### Bins -/

theorem testBit_clear {mask idx : Nat} (hidx : idx < 64) :
    (mask &&& (2 ^ 64 - 1 - 2 ^ idx)).testBit i =
      (mask.testBit i && (decide (i < 64) && !decide (idx = i))) := by
  have hlt : 2 ^ idx < 2 ^ 64 := Nat.pow_lt_pow_right (by decide) hidx
  rw [Nat.testBit_and, Nat.sub_sub, Nat.add_comm 1, Nat.testBit_two_pow_sub_succ hlt,
    Nat.testBit_two_pow]

structure Bins (h : O1Heap) (lists : Nat → List Nat) : Prop where
  head : ∀ i, h.bins i = (lists i).head?
  linked : ∀ i, Linked (fun x => (h.nodes x).nextFree) (fun x => (h.nodes x).prevFree) none
    (lists i) none
  nodup : ∀ i, (lists i).Nodup
  disjoint : ∀ {i j x}, x ∈ lists i → x ∈ lists j → i = j
  made : ∀ {i x}, x ∈ lists i → x < h.fresh
  small : ∀ {i}, lists i ≠ [] → i < 64
  mask : ∀ i, h.nonemptyBinMask.testBit i = true ↔ lists i ≠ []

namespace Bins

variable {h : O1Heap} {lists : Nat → List Nat} {id : Nat}

section

variable (hb : Bins h lists)
include hb

theorem small_of_mem (hx : x ∈ lists i) : i < 64 :=
  hb.small (ne_nil_of_mem hx)

theorem link_of_mem (hx : x ∈ lists i) :
    h.rooted x = true ∨ ∃ y ∈ lists i, (h.nodes y).nextFree = some x := by
  obtain ⟨before, after, hlist⟩ := append_of_mem hx
  rcases eq_nil_or_concat' before with rfl | ⟨front, y, rfl⟩
  · refine .inl (rooted_of_bins (i := i) ?_ ?_)
    · exact Nat.lt_trans (hb.small_of_mem hx) (by decide)
    · rw [hb.head, hlist]
      rfl
  · refine .inr ⟨y, by simp [hlist], ?_⟩
    have hlinked := hb.linked i
    rw [hlist, append_assoc] at hlinked
    exact hlinked.at_split.1

theorem held (hx : x ∈ lists i) : x ∈ h.held := by
  refine mem_held (S := fun x => ∃ i, x ∈ lists i) ?_ ⟨i, hx⟩
  rintro x ⟨i, hx⟩
  refine ⟨hb.made hx, (hb.link_of_mem hx).imp_right ?_⟩
  rintro ⟨y, hy, hlink⟩
  exact ⟨y, ⟨i, hy⟩, .inr hlink⟩

theorem update {h' : O1Heap} {idx : Nat} {list : List Nat}
    (hfresh : h'.fresh = h.fresh) (hsmall : idx < 64) (hhead : h'.bins idx = list.head?)
    (hbins : ∀ i ≠ idx, h'.bins i = h.bins i)
    (hlinked : Linked (fun x => (h'.nodes x).nextFree) (fun x => (h'.nodes x).prevFree) none list
      none) (hlinks : ∀ i ≠ idx, ∀ x ∈ lists i, (h'.nodes x).nextFree = (h.nodes x).nextFree ∧
      (h'.nodes x).prevFree = (h.nodes x).prevFree)
    (hnodup : list.Nodup) (hmade : ∀ x ∈ list, x < h.fresh)
    (hmem : ∀ x ∈ list, ∀ i ≠ idx, x ∉ lists i)
    (hmask : h'.nonemptyBinMask.testBit idx = true ↔ list ≠ [])
    (hmasks : ∀ i ≠ idx, h'.nonemptyBinMask.testBit i = h.nonemptyBinMask.testBit i) :
    Bins h' (Function.update lists idx list) := by
  -- a property of every list is shown for the new one and for the others
  have hlists : ∀ {P : Nat → List Nat → Prop}, P idx list → (∀ i ≠ idx, P i (lists i)) →
      ∀ i, P i (Function.update lists idx list i) := by
    intro P hnew hold i
    by_cases hi : i = idx
    · rw [hi, update_self]
      exact hnew
    · rw [update_of_ne hi]
      exact hold i hi
  refine ⟨?_, ?_, ?_, ?_, ?_, ?_, ?_⟩
  · exact hlists (P := fun i l => h'.bins i = l.head?) hhead
      fun i hi => (hbins i hi).trans (hb.head i)
  · exact hlists (P := fun _ l => Linked _ _ none l none) hlinked
      fun i hi => (hb.linked i).congr (hlinks i hi)
  · exact hlists (P := fun _ l => l.Nodup) hnodup fun i _ => hb.nodup i
  · intro i j x hxi hxj
    by_cases hi : i = idx <;> by_cases hj : j = idx
    · rw [hi, hj]
    · rw [hi, update_self] at hxi
      rw [update_of_ne hj] at hxj
      exact absurd hxj (hmem x hxi j hj)
    · rw [update_of_ne hi] at hxi
      rw [hj, update_self] at hxj
      exact absurd hxi (hmem x hxj i hi)
    · rw [update_of_ne hi] at hxi
      rw [update_of_ne hj] at hxj
      exact hb.disjoint hxi hxj
  · intro i
    rw [hfresh]
    exact fun {x} hx => hlists (P := fun _ l => ∀ x ∈ l, x < h.fresh) hmade
      (fun i _ x hx => hb.made hx) i x hx
  · intro i
    exact hlists (P := fun i l => l ≠ [] → i < 64) (fun _ => hsmall) (fun i _ => hb.small) i
  · refine hlists (P := fun i l => h'.nonemptyBinMask.testBit i = true ↔ l ≠ []) hmask ?_
    intro i hi
    rw [hmasks i hi, hb.mask]

theorem rebin (hnew : ∀ i, id ∉ lists i) (hmade : id < h.fresh)
    (hsize : fragmentSizeMin ≤ (h.nodes id).size) (hsmall : binIndex (h.nodes id).size < 64) :
    ∃ h', h.rebin id = some h' ∧ SameCore h h' ∧
      Bins h' (Function.update lists (binIndex (h.nodes id).size)
        (id :: lists (binIndex (h.nodes id).size))) := by
  set idx := binIndex (h.nodes id).size with hidx
  have hbound : ¬ numBinsMax ≤ idx := Nat.not_le_of_lt (Nat.lt_trans hsmall (by decide))
  have hnotHead : h.bins idx ≠ some id := by
    intro heq
    rw [hb.head] at heq
    exact hnew idx (mem_of_head? heq)
  have hne : ∀ i, ∀ x ∈ lists i, x ≠ id := fun i x hx heq => hnew i (heq ▸ hx)
  rw [O1Heap.rebin]
  simp only [← hidx, if_neg hbound, if_neg hnotHead, if_neg (Nat.not_lt.mpr hsize)]
  refine ⟨_, rfl, ⟨rfl, rfl, rfl, rfl, fun i => ?_⟩, hb.update rfl hsmall ?_ ?_ ?_ ?_ ?_ ?_ ?_ ?_ ?_⟩
  · dsimp only
    split_ifs with hid hnext
    · rfl
    · rfl
    · rfl
  · simp
  · exact fun i hi => if_neg hi
  · refine (hb.linked idx).push ?_ ?_ ?_ ?_ ?_
    · simp [hb.head]
    · simp
    · intro y hy
      simp only [hne idx y hy, if_false]
      split_ifs <;> rfl
    · intro y hy
      have hnotFirst : h.bins idx ≠ some y := by
        rw [hb.head]
        exact fun hfirst => head_notMem_tail (hb.nodup idx) hfirst hy
      simp [hne idx y (mem_of_mem_tail hy), hnotFirst]
    · intro y hy
      have hfirst : h.bins idx = some y := (hb.head idx).trans hy
      simp [hne idx y (mem_of_head? hy), hfirst]
  · intro i hi x hx
    have hother : h.bins idx ≠ some x := by
      intro hfirst
      rw [hb.head] at hfirst
      exact hi (hb.disjoint hx (mem_of_head? hfirst))
    simp [hne i x hx, hother]
  · exact nodup_cons.mpr ⟨hnew idx, hb.nodup idx⟩
  · exact forall_mem_cons.mpr ⟨hmade, fun x hx => hb.made hx⟩
  · refine forall_mem_cons.mpr ⟨fun i _ => hnew i, fun x hx i hi hx' => ?_⟩
    exact hi (hb.disjoint hx' hx)
  · simp
  · intro i hi
    simp [Nat.testBit_two_pow_of_ne (Ne.symm hi)]

theorem unbin_fields (hid : id ∈ lists (binIndex (h.nodes id).size))
    (hsize : fragmentSizeMin ≤ (h.nodes id).size) {xs ys : List Nat}
    (hlist : lists (binIndex (h.nodes id).size) = xs ++ id :: ys) :
    ∃ h', h.unbin id = some h' ∧ SameCore h h' ∧
      (∀ i ≠ binIndex (h.nodes id).size, h'.bins i = h.bins i) ∧
      h'.bins (binIndex (h.nodes id).size) = (xs ++ ys).head? ∧ (∀ i ≠ binIndex (h.nodes id).size,
        h'.nonemptyBinMask.testBit i = h.nonemptyBinMask.testBit i) ∧
      (h'.nonemptyBinMask.testBit (binIndex (h.nodes id).size) = true ↔ xs ++ ys ≠ []) ∧
      (∀ x, (h'.nodes x).nextFree =
        if xs.getLast? = some x then ys.head? else (h.nodes x).nextFree) ∧
      ∀ x, (h'.nodes x).prevFree =
        if ys.head? = some x then xs.getLast? else (h.nodes x).prevFree := by
  set idx := binIndex (h.nodes id).size with hidx
  have hsmall : idx < 64 := hb.small_of_mem hid
  have hbound : ¬ numBinsMax ≤ idx := Nat.not_le_of_lt (Nat.lt_trans hsmall (by decide))
  have hnodup := hb.nodup idx
  have hlinked := hb.linked idx
  rw [hlist] at hnodup hlinked
  obtain ⟨hnext, hprev⟩ := hlinked.at_split
  obtain ⟨hxs, hys, hapart⟩ := nodup_append.mp hnodup
  have hself : ¬(ys.head? = some id ∨ xs.getLast? = some id) := by
    rintro (hfirst | hlast)
    · exact (nodup_cons.mp hys).1 (mem_of_head? hfirst)
    · exact hapart id (mem_of_getLast? hlast) id mem_cons_self rfl
  have hsize' : ¬(h.nodes id).size < fragmentSizeMin := Nat.not_lt.mpr hsize
  rcases eq_nil_or_concat' xs with rfl | ⟨front, y, rfl⟩
  · rw [O1Heap.unbin]
    simp only [← hidx, hnext, hprev, if_neg hbound, if_neg hself, if_neg hsize']
    refine ⟨_, rfl, ⟨rfl, rfl, rfl, rfl, fun i => ?_⟩, fun i hi => if_neg hi, if_pos rfl, ?_, ?_,
      fun x => ?_, fun x => ?_⟩
    · dsimp only
      split_ifs <;> rfl
    · intro i hi
      dsimp only
      split_ifs
      · rw [testBit_clear hsmall, decide_eq_false (Ne.symm hi), Bool.not_false, Bool.and_true]
        by_cases hmask : h.nonemptyBinMask.testBit i = true
        · rw [hmask, decide_eq_true (hb.small ((hb.mask i).mp hmask)), Bool.and_true]
        · rw [Bool.not_eq_true] at hmask
          rw [hmask, Bool.false_and]
      · rfl
    · rw [nil_append]
      split_ifs with hempty
      · rw [testBit_clear hsmall]
        simp [List.head?_eq_none_iff.mp hempty]
      · rw [hb.mask, hlist]
        simp [List.head?_eq_none_iff] at hempty
        simp [hempty]
    · have hnil : ¬([] : List Nat).getLast? = some x := nofun
      rw [if_neg hnil]
      dsimp only
      split_ifs <;> rfl
    · dsimp only
      split_ifs <;> rfl
  · have hlast : (front ++ [y]).getLast? = some y := by simp
    have hheld : h.upgrade (some y) = some y := upgrade_eq_some (hb.held (i := idx) (by simp [hlist]))
    rw [hlast] at hprev hself
    rw [O1Heap.unbin]
    simp only [← hidx, hnext, hprev, if_neg hbound, if_neg hself, if_neg hsize', hheld]
    refine ⟨_, rfl, ⟨rfl, rfl, rfl, rfl, fun i => ?_⟩, fun i hi => rfl, ?_, fun i hi => rfl, ?_,
      fun x => ?_, fun x => ?_⟩
    · dsimp only
      split_ifs <;> rfl
    · rw [hb.head, hlist]
      cases front <;> rfl
    · simp [hb.mask, hlist]
    · rw [hlast]
      dsimp only
      split_ifs <;> rfl
    · rw [hlast]
      dsimp only
      split_ifs <;> rfl

theorem unbin (hid : id ∈ lists (binIndex (h.nodes id).size))
    (hsize : fragmentSizeMin ≤ (h.nodes id).size) : ∃ h', h.unbin id = some h' ∧ SameCore h h' ∧
      Bins h' (Function.update lists (binIndex (h.nodes id).size)
        ((lists (binIndex (h.nodes id).size)).erase id)) := by
  set idx := binIndex (h.nodes id).size with hidx
  have hsmall : idx < 64 := hb.small_of_mem hid
  obtain ⟨xs, ys, hlist⟩ := append_of_mem hid
  have hnodup := hb.nodup idx
  have hlinked := hb.linked idx
  rw [hlist] at hnodup hlinked
  obtain ⟨hxs, hys, hapart⟩ := nodup_append.mp hnodup
  have hidxs : id ∉ xs := fun hmem => hapart id hmem id mem_cons_self rfl
  have herase : (lists idx).erase id = xs ++ ys := by
    rw [hlist, erase_append_right _ hidxs, erase_cons_head]
  rw [herase]
  obtain ⟨h', hunbin, hsame, hbins, hbin, hmasks, hmask, hnextFree, hprevFree⟩ :=
    hb.unbin_fields hid hsize hlist
  have hnotys : ∀ x ∈ xs, ys.head? ≠ some x := fun x hx hfirst =>
    hapart x hx x (mem_cons_of_mem id (mem_of_head? hfirst)) rfl
  have hnotxs : ∀ y ∈ ys, xs.getLast? ≠ some y := fun y hy hlast =>
    hapart y (mem_of_getLast? hlast) y (mem_cons_of_mem id hy) rfl
  have hmem : ∀ x ∈ xs ++ ys, x ∈ lists idx := by
    intro x hx
    rw [hlist]
    rcases mem_append.mp hx with hx | hx
    · exact mem_append_left _ hx
    · exact mem_append_right _ (mem_cons_of_mem id hx)
  have hother : ∀ x ∈ xs ++ ys, ∀ i ≠ idx, x ∉ lists i :=
    fun x hx i hi hx' => hi (hb.disjoint hx' (hmem x hx))
  refine ⟨h', hunbin, hsame,
    hb.update hsame.fresh hsmall hbin hbins ?_ ?_ ?_ ?_ hother hmask hmasks⟩
  · refine hlinked.remove ?_ ?_ ?_ ?_ ?_ ?_
    · intro y hy
      rw [hprevFree, if_neg (hnotys y hy)]
    · intro y hy
      rw [hnextFree, if_neg fun hlast => last_notMem_dropLast hxs hlast hy]
    · intro y hy
      rw [hnextFree, if_pos (Option.mem_def.mp hy)]
    · intro y hy
      rw [hnextFree, if_neg (hnotxs y hy)]
    · intro y hy
      rw [hprevFree, if_neg fun hfirst => head_notMem_tail (nodup_cons.mp hys).2 hfirst hy]
    · intro y hy
      rw [hprevFree, if_pos (Option.mem_def.mp hy)]
  · intro i hi x hx
    have hx' : x ∉ xs ++ ys := fun hmem' => hother x hmem' i hi hx
    rw [mem_append, not_or] at hx'
    rw [hnextFree, hprevFree, if_neg fun hlast => hx'.1 (mem_of_getLast? hlast),
      if_neg fun hfirst => hx'.2 (mem_of_head? hfirst)]
    exact ⟨rfl, rfl⟩
  · exact hnodup.sublist ((sublist_cons_self id ys).append_left xs)
  · exact fun x hx => hb.made (hmem x hx)

end

end Bins

end Mwemu.O1Heap
