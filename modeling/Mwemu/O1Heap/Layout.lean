import Mathlib.Data.List.Chain
import Mwemu.O1Heap.Basic

/-!
# Layouts of an arena

What the allocator is for, without its links: the arena is a row of blocks, free or used, one after
the other from its start. The row ends at the end of the arena, or at the last multiple of 256 before
it when the rest has been given up. Every block but the last has a multiple of 256 bytes, and no two
free blocks are neighbours.

Operations of the allocator replace a few blocks in the middle of the row by others with the same
bounds.
-/

namespace Mwemu.O1Heap

open List

structure Block where
  offset : Nat
  size : Nat
  used : Bool
  deriving DecidableEq, Repr

/-- The blocks follow one another from `start` to `stop`. -/
def Tiles : Nat → List Block → Nat → Prop
  | start, [], stop => start = stop
  | start, b :: bs, stop => b.offset = start ∧ Tiles (start + b.size) bs stop

variable {start stop : Nat} {bs : List Block}

theorem tiles_append {cs : List Block} :
    Tiles start (bs ++ cs) stop ↔ ∃ mid, Tiles start bs mid ∧ Tiles mid cs stop := by
  induction bs generalizing start with
  | nil => simp [Tiles]
  | cons b bs ih => simp only [cons_append, Tiles, ih, and_assoc, exists_and_left]

theorem Tiles.le (htiles : Tiles start bs stop) : start ≤ stop := by
  induction bs generalizing start with
  | nil => exact Nat.le_of_eq htiles
  | cons b bs ih => exact Nat.le_trans (Nat.le_add_right _ _) (ih htiles.2)

variable {b : Block}

theorem Tiles.at_split {l r : List Block} (htiles : Tiles start (l ++ b :: r) stop) :
    Tiles start l b.offset ∧ Tiles (b.offset + b.size) r stop := by
  obtain ⟨mid, hl, rfl, hr⟩ := tiles_append.mp htiles
  exact ⟨hl, hr⟩

section

variable (htiles : Tiles start bs stop)
include htiles

theorem Tiles.mod (haligned : ∀ b ∈ bs, b.size % 256 = 0)
    (hstart : start % 256 = 0) : stop % 256 = 0 := by
  induction bs generalizing start with
  | nil => exact htiles ▸ hstart
  | cons b bs ih =>
    obtain ⟨hb, hbs⟩ := forall_mem_cons.mp haligned
    exact ih htiles.2 hbs (by omega)

theorem Tiles.le_offset (hb : b ∈ bs) : start ≤ b.offset := by
  obtain ⟨l, r, rfl⟩ := append_of_mem hb
  exact htiles.at_split.1.le

theorem Tiles.stop_le (hb : b ∈ bs) : b.offset + b.size ≤ stop := by
  obtain ⟨l, r, rfl⟩ := append_of_mem hb
  exact htiles.at_split.2.le

theorem Tiles.pairwise : bs.Pairwise fun b c => b.offset + b.size ≤ c.offset := by
  induction bs generalizing start with
  | nil => exact List.Pairwise.nil
  | cons b bs ih =>
    obtain ⟨rfl, htiles⟩ := htiles
    exact List.Pairwise.cons (fun c hc => htiles.le_offset hc) (ih htiles)

end

/-- Neighbours are not both free. -/
def Apart (b c : Block) : Prop :=
  b.used = true ∨ c.used = true

structure Layout (cap : Nat) (bs : List Block) : Prop where
  tiles : ∃ stop, Tiles 0 bs stop ∧ stop ≤ cap ∧ stop / 256 = cap / 256
  min : ∀ b ∈ bs, 256 ≤ b.size
  aligned : ∀ b ∈ bs.dropLast, b.size % 256 = 0
  apart : bs.IsChain Apart

namespace Layout

variable {cap : Nat} {bs l mid mid' r : List Block} {b : Block}

/-! ### What a layout says of its blocks -/

theorem stop_le (h : Layout cap (l ++ b :: r)) : b.offset + b.size ≤ cap := by
  obtain ⟨stop, htiles, hle, -⟩ := h.tiles
  exact Nat.le_trans (htiles.stop_le (by simp)) hle

theorem aligned_append (h : Layout cap (l ++ mid)) (hne : mid ≠ []) :
    (∀ c ∈ l, c.size % 256 = 0) ∧ ∀ c ∈ mid.dropLast, c.size % 256 = 0 := by
  have haligned := h.aligned
  rw [dropLast_append_of_ne_nil hne] at haligned
  exact forall_mem_append.mp haligned

theorem offset_mod (h : Layout cap (l ++ b :: r)) : b.offset % 256 = 0 := by
  obtain ⟨stop, htiles, -, -⟩ := h.tiles
  exact htiles.at_split.1.mod (h.aligned_append (cons_ne_nil b r)).1 rfl

theorem pairwise (h : Layout cap bs) : bs.Pairwise fun b c => b.offset + b.size ≤ c.offset := by
  obtain ⟨stop, htiles, -, -⟩ := h.tiles
  exact htiles.pairwise

theorem pairwise_offset_ne (h : Layout cap bs) : bs.Pairwise fun b c => b.offset ≠ c.offset := by
  refine h.pairwise.imp_of_mem fun {b c} hb _ hle => ?_
  have := h.min b hb
  omega

theorem eq_of_offset (h : Layout cap bs) {c : Block} (hb : b ∈ bs) (hc : c ∈ bs)
    (hoffset : b.offset = c.offset) : b = c := by
  by_contra hne
  have hsym : Std.Symm fun b c : Block => b.offset ≠ c.offset := ⟨fun _ _ h => h.symm⟩
  exact h.pairwise_offset_ne.forall hb hc hne hoffset

theorem offset_ne (h : Layout cap bs) {c : Block} (hb : b ∈ bs) (hc : c ∈ bs)
    (hfree : b.used = false) (hused : c.used = true) : b.offset ≠ c.offset := by
  intro hoffset
  rw [← h.eq_of_offset hb hc hoffset, hfree] at hused
  cases hused

theorem left_used (h : Layout cap (l ++ b :: r)) (hfree : b.used = false) :
    ∀ c ∈ l.getLast?, c.used = true := by
  intro c hc
  have happart := (isChain_append.mp h.apart).2.2 c hc b rfl
  exact happart.resolve_right (by rw [hfree]; exact Bool.false_ne_true)

theorem right_used (h : Layout cap (l ++ b :: r)) (hfree : b.used = false) :
    ∀ c ∈ r.head?, c.used = true := by
  intro c hc
  rw [append_cons] at h
  have happart := (isChain_append.mp h.apart).2.2 b (by simp) c hc
  exact happart.resolve_left (by rw [hfree]; exact Bool.false_ne_true)

/-! ### Edits -/

/-- Blocks in the middle are replaced by others. Their end may only change at the end of the row. -/
theorem splice (h : Layout cap (l ++ mid ++ r)) (hne : mid ≠ []) (hne' : mid' ≠ [])
    (hspan : ∀ start stop, Tiles start mid stop → ∃ stop', Tiles start mid' stop' ∧
        (stop' = stop ∨ r = [] ∧ stop' ≤ stop ∧ stop' / 256 = stop / 256))
    (hmin : ∀ b ∈ mid', 256 ≤ b.size) (haligned : ∀ b ∈ mid'.dropLast, b.size % 256 = 0)
    (hlast : r ≠ [] → ∀ b ∈ mid', b.size % 256 = 0) (hapart : (l ++ mid' ++ r).IsChain Apart) :
    Layout cap (l ++ mid' ++ r) := by
  obtain ⟨stop, htiles, hle, hdiv⟩ := h.tiles
  obtain ⟨m, hlm, hr⟩ := tiles_append.mp htiles
  obtain ⟨s, hl, hmid⟩ := tiles_append.mp hlm
  obtain ⟨m', hmid', hm'⟩ := hspan s m hmid
  refine ⟨?_, ?_, ?_, hapart⟩
  · rcases hm' with rfl | ⟨rfl, hle', hdiv'⟩
    · exact ⟨stop, tiles_append.mpr ⟨m', tiles_append.mpr ⟨s, hl, hmid'⟩, hr⟩, hle, hdiv⟩
    · refine ⟨m', tiles_append.mpr ⟨m', tiles_append.mpr ⟨s, hl, hmid'⟩, rfl⟩, ?_, ?_⟩
      · exact Nat.le_trans hle' (Nat.le_trans hr.le hle)
      · rw [hdiv', show m = stop from hr, hdiv]
  · intro b hb
    rw [append_assoc, mem_append, mem_append] at hb
    rcases hb with hb | hb | hb
    · exact h.min b (by simp [hb])
    · exact hmin b hb
    · exact h.min b (by simp [hb])
  · rw [append_assoc] at h ⊢
    obtain ⟨hal, har⟩ := h.aligned_append (by simp [hne])
    rw [dropLast_append_of_ne_nil (by simp [hne'])]
    refine forall_mem_append.mpr ⟨hal, ?_⟩
    by_cases hr : r = []
    · rwa [hr, append_nil]
    · rw [dropLast_append_of_ne_nil hr] at har ⊢
      exact forall_mem_append.mpr ⟨hlast hr, (forall_mem_append.mp har).2⟩

theorem apart_splice (h : (l ++ mid ++ r).IsChain Apart) (hne' : mid' ≠ [])
    (hmid : mid'.IsChain Apart) (hleft : ∀ b ∈ l.getLast?, ∀ c ∈ mid'.head?, Apart b c)
    (hright : ∀ b ∈ mid'.getLast?, ∀ c ∈ r.head?, Apart b c) : (l ++ mid' ++ r).IsChain Apart := by
  obtain ⟨hlm, hr, -⟩ := isChain_append.mp h
  refine isChain_append.mpr ⟨isChain_append.mpr ⟨hlm.left_of_append, hmid, hleft⟩, hr, ?_⟩
  rwa [List.getLast?_append_of_ne_nil _ hne']

def total (bs : List Block) : Nat :=
  (bs.map Block.size).sum

theorem stop_eq_add_total (htiles : Tiles start bs stop) : stop = start + total bs := by
  induction bs generalizing start with
  | nil => exact htiles.symm
  | cons b bs ih =>
    rw [ih htiles.2, total, total, map_cons, sum_cons, Nat.add_assoc]

theorem total_mod (haligned : ∀ b ∈ bs, b.size % 256 = 0) : total bs % 256 = 0 := by
  induction bs with
  | nil => rfl
  | cons b bs ih =>
    obtain ⟨hb, hbs⟩ := forall_mem_cons.mp haligned
    have := ih hbs
    rw [total, map_cons, sum_cons]
    rw [total] at this
    omega

theorem total_mod_of_ne_nil (h : Layout cap (l ++ mid ++ r)) (hr : r ≠ []) : total mid % 256 = 0 :=
  total_mod fun b hb => (h.aligned_append hr).1 b (mem_append_right l hb)

variable {size rest : Nat}

theorem edit_split (h : Layout cap (l ++ b :: mid ++ r)) (hsum : size + rest = total (b :: mid))
    (hsize : 256 ≤ size) (hmod : size % 256 = 0) (hrest : 256 ≤ rest)
    (hright : ∀ c ∈ r.head?, c.used = true) :
    Layout cap (l ++ [⟨b.offset, size, true⟩, ⟨b.offset + size, rest, false⟩] ++ r) := by
  refine h.splice (cons_ne_nil _ _) (cons_ne_nil _ _) ?_ (by simp [hsize, hrest])
    (by simp [hmod]) ?_ ?_
  · intro start stop htiles
    have hstop := stop_eq_add_total htiles
    exact ⟨stop, ⟨htiles.1, by rw [htiles.1], by change start + size + rest = stop; omega⟩, .inl rfl⟩
  · intro hr
    have := h.total_mod_of_ne_nil hr
    have : rest % 256 = 0 := by omega
    simp [hmod, this]
  · refine apart_splice h.apart (cons_ne_nil _ _) (by simp [Apart]) (by simp [Apart]) ?_
    intro b hb c hc
    exact .inr (hright c hc)

/-- The blocks become one used block. It may leave out less than 256 bytes at the end of the row. -/
theorem edit_used (h : Layout cap (l ++ b :: mid ++ r)) (hsize : 256 ≤ size)
    (hle : size ≤ total (b :: mid)) (hlt : total (b :: mid) < size + 256)
    (hmod : size = total (b :: mid) ∨ size % 256 = 0) :
    Layout cap (l ++ [⟨b.offset, size, true⟩] ++ r) := by
  have hexact : r ≠ [] → size = total (b :: mid) := by
    intro hr
    have := h.total_mod_of_ne_nil hr
    omega
  have hoffset : b.offset % 256 = 0 := by
    rw [append_assoc] at h
    exact h.offset_mod
  refine h.splice (cons_ne_nil _ _) (cons_ne_nil _ _) ?_ (by simp [hsize]) (by simp) ?_ ?_
  · intro start stop htiles
    have hstop := stop_eq_add_total htiles
    refine ⟨start + size, ⟨htiles.1, rfl⟩, ?_⟩
    by_cases hr : r = []
    · have hstart : b.offset = start := htiles.1
      exact .inr ⟨hr, by omega, by omega⟩
    · exact .inl (by rw [hstop, hexact hr])
  · intro hr
    have := h.total_mod_of_ne_nil hr
    have := hexact hr
    simp only [mem_singleton, forall_eq]
    omega
  · exact apart_splice h.apart (cons_ne_nil _ _) (by simp) (by simp [Apart]) (by simp [Apart])

theorem edit_free (h : Layout cap (l ++ b :: mid ++ r))
    (hleft : ∀ c ∈ l.getLast?, c.used = true) (hright : ∀ c ∈ r.head?, c.used = true) :
    Layout cap (l ++ [⟨b.offset, total (b :: mid), false⟩] ++ r) := by
  have hb : 256 ≤ b.size := h.min b (by simp)
  refine h.splice (cons_ne_nil _ _) (cons_ne_nil _ _) ?_ ?_ (by simp) ?_ ?_
  · intro start stop htiles
    exact ⟨stop, ⟨htiles.1, (stop_eq_add_total htiles).symm⟩, .inl rfl⟩
  · rw [total, map_cons, sum_cons]
    simp only [mem_singleton, forall_eq]
    omega
  · intro hr
    simpa using h.total_mod_of_ne_nil hr
  · refine apart_splice h.apart (cons_ne_nil _ _) (by simp) ?_ ?_
    · intro c hc _ _
      exact .inl (hleft c hc)
    · intro _ _ c hc
      exact .inr (hright c hc)

end Layout

end Mwemu.O1Heap
