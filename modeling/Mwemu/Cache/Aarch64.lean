import Mwemu.Cache.Blocks

/-!
# Blocks of AArch64 instructions

`insert_aarch64_from_block` decodes a block word by word. It gives up in three ways: the words run
out, a word does not decode, or the slots run out, and then the whole cache is flushed. Only an
insertion that decodes something moves the cursor.
-/

namespace Mwemu.Cache

open List

/-- A decoder of four-byte words, which need not all decode; `endsBlock` recognises the branches. -/
structure WordDecoder (T : Type) where
  decode : List UInt8 → Option T
  endsBlock : T → Bool

variable {T : Type}

/-- The instructions of a block up to the first branch or word that does not decode. -/
def WordDecoder.block (dec : WordDecoder T) : List UInt8 → List T
  | b₀ :: b₁ :: b₂ :: b₃ :: rest =>
    match dec.decode [b₀, b₁, b₂, b₃] with
    | none => []
    | some native => native :: if dec.endsBlock native then [] else dec.block rest
  | _ => []

/-- How often the body of the decoding loop is entered for a block, if the slots do not run out. -/
def WordDecoder.passes (dec : WordDecoder T) : List UInt8 → Nat
  | b₀ :: b₁ :: b₂ :: b₃ :: rest =>
    match dec.decode [b₀, b₁, b₂, b₃] with
    | none => 1
    | some native => 1 + if dec.endsBlock native then 0 else dec.passes rest
  | _ => 0

namespace InstructionCache

/-- The decoding loop: the number of instructions, or `none` if the slots run out. -/
def fillAarch64 (dec : WordDecoder T) (slot : Nat) :
    List UInt8 → Nat → InstructionCache T → Option Nat × InstructionCache T
  | b₀ :: b₁ :: b₂ :: b₃ :: rest, count, c =>
    if instructionArraySize ≤ slot + count then (none, c.flushCache)
    else
      match dec.decode [b₀, b₁, b₂, b₃] with
      | none => (some count, c)
      | some native =>
        let c := { c with instructions := Function.update c.instructions (slot + count) native }
        if dec.endsBlock native then (some (count + 1), c)
        else fillAarch64 dec slot rest (count + 1) c
  | _, count, c => (some count, c)

def insertAarch64FromBlock (c : InstructionCache T) (dec : WordDecoder T) (block : List UInt8)
    (pcAddr : Nat) : InstructionCache T :=
  let slot := c.nextInstructionSlot
  match fillAarch64 dec slot block 0 c with
  | (none, c) => c
  | (some count, c) =>
    if count = 0 then c
    else
      let c := { c with nextInstructionSlot := c.nextInstructionSlot + count }
      let c := c.storeEntry pcAddr slot count
      (c.lookupEntry pcAddr 0).2

end InstructionCache

/-! ### The decoded words -/

theorem WordDecoder.passes_le (dec : WordDecoder T) (bytes : List UInt8) :
    4 * dec.passes bytes ≤ bytes.length := by
  fun_induction dec.passes bytes with
  | case1 b₀ b₁ b₂ b₃ rest hdecode =>
    simp only [length_cons]
    omega
  | case2 b₀ b₁ b₂ b₃ rest native hdecode ih =>
    simp only [length_cons]
    split <;> omega
  | case3 bytes hshort => exact Nat.zero_le _

theorem WordDecoder.length_block_le (dec : WordDecoder T) (bytes : List UInt8) :
    (dec.block bytes).length ≤ dec.passes bytes := by
  fun_induction dec.block bytes with
  | case1 b₀ b₁ b₂ b₃ rest hdecode => exact Nat.zero_le _
  | case2 b₀ b₁ b₂ b₃ rest native hdecode ih =>
    rw [WordDecoder.passes, hdecode]
    simp only [length_cons]
    split
    · exact Nat.le_refl _
    · omega
  | case3 bytes hshort => exact Nat.zero_le _

theorem WordDecoder.decode_block (dec : WordDecoder T) (bytes : List UInt8) (i : Nat)
    (hi : i < (dec.block bytes).length) : 4 * i + 4 ≤ bytes.length ∧
      dec.decode ((bytes.drop (4 * i)).take 4) = some (dec.block bytes)[i] := by
  fun_induction dec.block bytes generalizing i with
  | case1 b₀ b₁ b₂ b₃ rest hdecode => exact absurd hi (Nat.not_lt_zero i)
  | case2 b₀ b₁ b₂ b₃ rest native hdecode ih =>
    cases i with
    | zero =>
      simp only [length_cons]
      exact ⟨by omega, hdecode⟩
    | succ i =>
      simp only [length_cons] at hi
      by_cases hends : dec.endsBlock native = true
      · rw [if_pos hends] at hi
        simp at hi
      simp only [if_neg hends, getElem_cons_succ, length_cons] at hi ⊢
      obtain ⟨hlen, hword⟩ := ih i (by omega)
      refine ⟨by omega, ?_⟩
      rw [show 4 * (i + 1) = 4 * i + 4 by omega]
      exact hword
  | case3 bytes hshort => exact absurd hi (Nat.not_lt_zero i)

namespace InstructionCache

/-! ### The decoding loop -/

theorem fillAarch64_eq (dec : WordDecoder T) (slot : Nat) (bytes : List UInt8) (count : Nat)
    (c : InstructionCache T) (hroom : slot + count + dec.passes bytes ≤ instructionArraySize) :
    fillAarch64 dec slot bytes count c =
      (some (count + (dec.block bytes).length), c.written (slot + count) (dec.block bytes)) := by
  fun_induction fillAarch64 dec slot bytes count c with
  | case1 b₀ b₁ b₂ b₃ rest count c hfull =>
    rw [WordDecoder.passes] at hroom
    split at hroom <;> omega
  | case2 b₀ b₁ b₂ b₃ rest count c hfull hdecode =>
    simp [WordDecoder.block, hdecode, written_nil]
  | case3 b₀ b₁ b₂ b₃ rest count c hfull native hdecode c' hends =>
    simp [WordDecoder.block, hdecode, hends, c', ← written_cons, written_nil]
  | case4 b₀ b₁ b₂ b₃ rest count c hfull native hdecode c' hends ih =>
    simp only [WordDecoder.passes, hdecode, hends, Bool.false_eq_true, if_false] at hroom
    rw [ih (by omega)]
    simp only [WordDecoder.block, hdecode, hends, Bool.false_eq_true, if_false,
      length_cons, ← written_cons, c', Prod.mk.injEq, Option.some.injEq]
    exact ⟨by omega, rfl⟩
  | case5 bytes count c hshort =>
    have hblock : dec.block bytes = [] := by
      rw [WordDecoder.block]
      exact hshort
    rw [hblock, written_nil]
    rfl

/-- If the slots run out, nothing is left of the cache but the instructions before `slot`, those
written since and the cursor. -/
theorem fillAarch64_full (dec : WordDecoder T) (slot : Nat) (bytes : List UInt8) (count : Nat)
    (c : InstructionCache T) (hslot : slot + count ≤ instructionArraySize)
    (hroom : instructionArraySize < slot + count + dec.passes bytes) :
    ∃ part, fillAarch64 dec slot bytes count c =
      (none, (c.written (slot + count) part).flushCache) := by
  fun_induction fillAarch64 dec slot bytes count c with
  | case1 b₀ b₁ b₂ b₃ rest count c hfull => exact ⟨[], by rw [written_nil]⟩
  | case2 b₀ b₁ b₂ b₃ rest count c hfull hdecode =>
    simp only [WordDecoder.passes, hdecode] at hroom
    omega
  | case3 b₀ b₁ b₂ b₃ rest count c hfull native hdecode c' hends =>
    simp only [WordDecoder.passes, hdecode, hends, if_true] at hroom
    omega
  | case4 b₀ b₁ b₂ b₃ rest count c hfull native hdecode c' hends ih =>
    simp only [WordDecoder.passes, hdecode, hends, Bool.false_eq_true, if_false] at hroom
    obtain ⟨part, hpart⟩ := ih (by omega) (by omega)
    refine ⟨native :: part, ?_⟩
    rw [hpart, ← written_cons]
    rfl
  | case5 bytes count c hshort =>
    have hpasses : dec.passes bytes = 0 := by
      rw [WordDecoder.passes]
      exact hshort
    omega

theorem insertAarch64_cases {c : InstructionCache T}
    (hnext : c.nextInstructionSlot ≤ instructionArraySize) (dec : WordDecoder T)
    (bytes : List UInt8) (pc : Nat) :
    (instructionArraySize < c.nextInstructionSlot + dec.passes bytes ∧
      ∃ part, c.insertAarch64FromBlock dec bytes pc =
        (c.written c.nextInstructionSlot part).flushCache) ∨
    (c.nextInstructionSlot + dec.passes bytes ≤ instructionArraySize ∧ dec.block bytes = [] ∧
      c.insertAarch64FromBlock dec bytes pc = c) ∨
    (c.nextInstructionSlot + dec.passes bytes ≤ instructionArraySize ∧ dec.block bytes ≠ [] ∧
      c.insertAarch64FromBlock dec bytes pc =
        (((c.extend (dec.block bytes)).storeEntry pc c.nextInstructionSlot
          (dec.block bytes).length).lookupEntry pc 0).2) := by
  rw [insertAarch64FromBlock]
  by_cases hroom : c.nextInstructionSlot + dec.passes bytes ≤ instructionArraySize
  · have hfill := fillAarch64_eq dec c.nextInstructionSlot bytes 0 c hroom
    rw [Nat.zero_add, Nat.add_zero] at hfill
    simp only [hfill]
    by_cases hblock : dec.block bytes = []
    · refine .inr (.inl ⟨hroom, hblock, ?_⟩)
      rw [hblock, if_pos length_nil, written_nil]
    · refine .inr (.inr ⟨hroom, hblock, ?_⟩)
      rw [if_neg (fun hlen => hblock (length_eq_zero_iff.mp hlen))]
      rfl
  · obtain ⟨part, hfill⟩ := fillAarch64_full dec c.nextInstructionSlot bytes 0 c hnext
      (by omega)
    refine .inl ⟨by omega, part, ?_⟩
    simp only [hfill, Nat.add_zero]

theorem Stored.insertAarch64 {c : InstructionCache T} {decoded : Nat → List T}
    (hstored : c.Stored decoded) (dec : WordDecoder T) {bytes : List UInt8} {pc i : Nat}
    (hpc : pc ≠ invalidLpfAddr) (hnot : ¬ c.Has pc) (hfirst : c.FirstFree (home pc) i)
    (hroom : c.nextInstructionSlot + dec.passes bytes ≤ instructionArraySize)
    (hblock : dec.block bytes ≠ []) :
    ∃ (c' : InstructionCache T) (k : Nat), c'.Stored (Function.update decoded pc (dec.block bytes)) ∧
      (∀ j, ¬ (c'.cacheEntries j).Free → (c'.cacheEntries j).lpf = pc ∨
        ¬ (c.cacheEntries j).Free ∧ c'.cacheEntries j = c.cacheEntries j) ∧
      ¬ (c'.cacheEntries k).Free ∧ (c'.cacheEntries k).lpf = pc ∧
      c.insertAarch64FromBlock dec bytes pc = c'.atEntry (c'.cacheEntries k) := by
  have hlen := dec.length_block_le bytes
  rcases insertAarch64_cases hstored.next dec bytes pc with
    ⟨hfull, -⟩ | ⟨-, hnone, -⟩ | ⟨-, -, hinsert⟩
  · omega
  · exact absurd hnone hblock
  have hextend := hstored.extend (dec.block bytes) (by omega)
  have hfirst' : (c.extend (dec.block bytes)).FirstFree (home pc) i := hfirst
  have hnot' : ¬ (c.extend (dec.block bytes)).Has pc := hnot
  have hstored' := hextend.storeEntry hnot' hfirst'
    ⟨Nat.le_refl _, fun _ hi => written_block _ _ hi⟩
  have hentries := storeEntry_eq c.nextInstructionSlot (dec.block bytes).length hfirst'
  have hhas : ((c.extend (dec.block bytes)).storeEntry pc c.nextInstructionSlot
      (dec.block bytes).length).Has pc := by
    rw [hentries]
    exact ⟨home pc + i, by simp [CachedInstruction.Free, hpc], by simp⟩
  obtain ⟨k, hused, hlpf, hlookup⟩ := lookupEntry_of_has hstored'.tidy hhas
  refine ⟨_, k, hstored', fun j hj => ?_, hused, hlpf, hinsert.trans (by rw [hlookup])⟩
  rw [hentries] at hj ⊢
  by_cases hji : j = home pc + i
  · subst hji
    exact .inl (by simp)
  · simp only [Function.update_of_ne hji] at hj ⊢
    exact .inr ⟨hj, rfl⟩

end InstructionCache

end Mwemu.Cache
