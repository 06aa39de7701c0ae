import Mwemu.Cache.Table

/-!
# Decoded blocks in the cache

The part of the cache that does not depend on the instruction set: the slots of a stored block, how
a new block is written behind them, and `Stored`, which relates the table to the blocks that were
decoded for its addresses.
-/

namespace Mwemu.Cache

open Function

namespace InstructionCache

variable {T : Type}

/-- The slots from `slot` on hold the block, below the next slot to be handed out. -/
structure Holds (c : InstructionCache T) (slot : Nat) (block : List T) : Prop where
  below : slot + block.length ≤ c.nextInstructionSlot
  holds : ∀ i (hi : i < block.length), c.instructions (slot + i) = block[i]

variable {slot : Nat} {block : List T}

theorem Holds.of_agree {c c' : InstructionCache T} (hholds : c.Holds slot block)
    (hnext : c.nextInstructionSlot ≤ c'.nextInstructionSlot)
    (hagree : ∀ k, k < c.nextInstructionSlot → c'.instructions k = c.instructions k) :
    c'.Holds slot block := by
  have hbelow := hholds.below
  refine ⟨by omega, fun i hi => ?_⟩
  rw [hagree _ (by omega), hholds.holds i hi]

theorem setInstruction_eq (c : InstructionCache T) (ins : T) {index : Nat}
    (hindex : index < instructionArraySize) : c.setInstruction index ins =
      some { c with instructions := Function.update c.instructions index ins } :=
  if_pos hindex

def written (c : InstructionCache T) (slot : Nat) (block : List T) : InstructionCache T :=
  { c with
    instructions := fun k =>
      if slot ≤ k then block[k - slot]?.getD (c.instructions k) else c.instructions k }

theorem written_below (c : InstructionCache T) {k : Nat} (block : List T) (hk : k < slot) :
    (c.written slot block).instructions k = c.instructions k :=
  if_neg (Nat.not_le_of_lt hk)

theorem written_block (c : InstructionCache T) (slot : Nat) {i : Nat} (hi : i < block.length) :
    (c.written slot block).instructions (slot + i) = block[i] := by
  simp only [written, Nat.le_add_right, if_true, Nat.add_sub_cancel_left,
    List.getElem?_eq_getElem hi, Option.getD_some]

/-- The block written behind the last slot handed out, and its slots handed out. -/
def extend (c : InstructionCache T) (block : List T) : InstructionCache T :=
  { c.written c.nextInstructionSlot block with
    nextInstructionSlot := c.nextInstructionSlot + block.length }

theorem written_cons (c : InstructionCache T) (slot : Nat) (ins : T) (block : List T) :
    ({ c with instructions := Function.update c.instructions slot ins } :
      InstructionCache T).written (slot + 1) block = c.written slot (ins :: block) := by
  simp only [written]
  congr 1
  funext k
  by_cases hlt : slot < k
  · have hk : k - slot = k - (slot + 1) + 1 := by omega
    rw [if_pos (by omega), if_pos (by omega), hk, List.getElem?_cons_succ, update_of_ne (by omega)]
  rw [if_neg (by omega)]
  by_cases heq : k = slot
  · subst heq
    simp
  · rw [update_of_ne heq, if_neg (by omega)]

theorem written_nil (c : InstructionCache T) (slot : Nat) : c.written slot [] = c := by
  simp [written]

/-- Every entry leads to the block that was last decoded at its address. -/
structure Stored (c : InstructionCache T) (decoded : Nat → List T) : Prop where
  tidy : c.Tidy
  next : c.nextInstructionSlot ≤ instructionArraySize
  length : ∀ k, ¬ (c.cacheEntries k).Free →
    (c.cacheEntries k).instructionLen = (decoded (c.cacheEntries k).lpf).length
  blocks : ∀ k, ¬ (c.cacheEntries k).Free →
    c.Holds (c.cacheEntries k).instructionKey (decoded (c.cacheEntries k).lpf)

variable {c c' : InstructionCache T} {decoded : Nat → List T}

theorem stored_of_free (hfree : ∀ k, (c.cacheEntries k).Free)
    (hnext : c.nextInstructionSlot ≤ instructionArraySize) : c.Stored decoded :=
  ⟨⟨fun k hused => absurd (hfree k) hused, fun k _ _ _ hused => absurd (hfree k) hused⟩, hnext,
    fun k hused => absurd (hfree k) hused, fun k hused => absurd (hfree k) hused⟩

theorem Stored.shrinks (hs : c.Stored decoded) (htidy : c'.Tidy) (hshrinks : Shrinks c c') :
    c'.Stored decoded := by
  have hentry : ∀ k, ¬ (c'.cacheEntries k).Free → c'.cacheEntries k = c.cacheEntries k :=
    fun k hused => (hshrinks.entries k).resolve_right hused
  constructor
  case tidy => exact htidy
  case next => exact hshrinks.next ▸ hs.next
  case length =>
      intro k hused
      simp only [hentry k hused] at hused ⊢
      exact hs.length k hused
  case blocks =>
      intro k hused
      simp only [hentry k hused] at hused ⊢
      refine (hs.blocks k hused).of_agree (Nat.le_of_eq hshrinks.next.symm) fun j _ => ?_
      rw [hshrinks.instructions]

theorem Stored.moved (hs : c.Stored decoded) (slot len idx : Nat) : Stored { c with
      currentInstructionSlot := slot, currentDecodeLen := len, currentDecodeIdx := idx } decoded :=
  ⟨⟨hs.tidy.placed, hs.tidy.packed⟩, hs.next, hs.length,
    fun k hused => ⟨(hs.blocks k hused).below, (hs.blocks k hused).holds⟩⟩

theorem Stored.extend (hs : c.Stored decoded) (block : List T)
    (hroom : c.nextInstructionSlot + block.length ≤ instructionArraySize) :
    (c.extend block).Stored decoded := by
  refine ⟨⟨hs.tidy.placed, hs.tidy.packed⟩, hroom, hs.length, fun k hused => ?_⟩
  exact (hs.blocks k hused).of_agree (Nat.le_add_right _ _) fun j hj => written_below _ _ hj

theorem Stored.storeEntry (hs : c.Stored decoded) {addr i : Nat} (hnot : ¬ c.Has addr)
    (hfirst : c.FirstFree (home addr) i) (hblock : c.Holds slot block) :
    (c.storeEntry addr slot block.length).Stored (Function.update decoded addr block) := by
  have hother : ∀ k, ¬ (c.cacheEntries k).Free →
      Function.update decoded addr block (c.cacheEntries k).lpf = decoded (c.cacheEntries k).lpf :=
    fun k hused => update_of_ne (fun heq => hnot ⟨k, hused, heq⟩) _ _
  have htidy := hs.tidy.storeEntry slot block.length hfirst
  rw [storeEntry_eq _ _ hfirst] at htidy ⊢
  refine ⟨htidy, hs.next, fun k => ?_, fun k => ?_⟩
  · by_cases hk : k = home addr + i
    · subst hk
      simp
    · simp only [update_of_ne hk]
      intro hused
      rw [hother k hused]
      exact hs.length k hused
  by_cases hk : k = home addr + i
  · subst hk
    simp only [update_self]
    exact fun _ => ⟨hblock.below, hblock.holds⟩
  · simp only [update_of_ne hk]
    intro hused
    rw [hother k hused]
    exact ⟨(hs.blocks k hused).below, (hs.blocks k hused).holds⟩

end InstructionCache

end Mwemu.Cache
