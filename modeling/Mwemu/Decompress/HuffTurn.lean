import Mwemu.Decompress.HuffTable
import Mwemu.Decompress.Lznt1Codec

/-!
# The turns of the Huffman decoder

The reservoir holds the bits of the block, each word from its lowest bit on. A turn takes the symbol
that `pick` gives for the next fifteen bits and writes it, if it is a literal. Whatever it takes, it
only adds to the output.
-/

namespace Mwemu.Decompress

open Mwemu.Lib List Nat
open Lznt1 (meets_ok)

namespace Huff

/-! ### The reservoir -/

/-- Bit `n` of the data, each word from its lowest bit on; no bits behind the last word. -/
def bitAt (data : List UInt8) (n : Nat) : Bool :=
  decide (2 * (n / 16) + 1 < data.length) && (wordAt data (2 * (n / 16))).testBit (n % 16)

/-- The reservoir holds the next bits after `p` of them are taken. -/
structure Reservoir (data : List UInt8) (p : Nat) (s : HuffState) : Prop where
  words : ∃ q, s.cpos = 2 * q ∧ p + s.bitsLeft = 16 * q
  cpos : s.cpos ≤ data.length
  bits : ∀ t, s.bitBuf.testBit t = (decide (t < s.bitsLeft) && bitAt data (p + t))

theorem wordAt_lt (data : List UInt8) (i : Nat) : wordAt data i < 2 ^ 16 := by
  have hlow := (data[i]?.getD 0).toNat_lt
  have hhigh := (data[i + 1]?.getD 0).toNat_lt
  rw [wordAt]
  omega

section Reservoir

variable {data : List UInt8} {p : Nat} {s : HuffState} (hs : Reservoir data p s)
include hs

theorem Reservoir.refilled : Reservoir data p (refilled data s) := by
  obtain ⟨⟨q, hcpos, hleft⟩, hle, hbits⟩ := hs
  rw [Mwemu.Decompress.refilled]
  split
  next hroom =>
    refine ⟨⟨q + 1, by simp only; omega, by simp only; omega⟩, by simp only; omega, fun t => ?_⟩
    rw [testBit_mod_two_pow, testBit_or, testBit_shiftLeft, hbits t]
    have hword := wordAt_lt data s.cpos
    simp only
    by_cases hold : t < s.bitsLeft
    · have hge : ¬ s.bitsLeft ≤ t := Nat.not_le_of_lt hold
      simp [hold, hge, show t < 32 by omega, show t < s.bitsLeft + 16 by omega]
    by_cases hnew : t < s.bitsLeft + 16
    · have hdiv : (p + t) / 16 = q := by omega
      have hmod : (p + t) % 16 = t - s.bitsLeft := by omega
      have hmore : 2 * q + 1 < data.length := by omega
      simp [hold, hnew, bitAt, hdiv, hmod, hmore, hcpos, show t < 32 by omega,
        Nat.le_of_not_lt hold]
    · have hzero : (wordAt data s.cpos).testBit (t - s.bitsLeft) = false :=
        testBit_lt_two_pow (lt_of_lt_of_le hword
          (Nat.pow_le_pow_right (by decide) (by omega)))
      simp [hold, hnew, hzero]
  next => exact ⟨⟨q, hcpos, hleft⟩, hle, hbits⟩

theorem Reservoir.topUp (need : Nat) : Reservoir data p (topUp data need s) := by
  rw [Mwemu.Decompress.topUp]
  split
  · exact hs.refilled
  · exact hs

theorem Reservoir.take {n : Nat} (hn : n ≤ s.bitsLeft) (out : List UInt8) : Reservoir data (p + n)
      { s with bitBuf := s.bitBuf >>> n, bitsLeft := s.bitsLeft - n, out := out } := by
  obtain ⟨⟨q, hcpos, hleft⟩, hle, hbits⟩ := hs
  refine ⟨⟨q, hcpos, by simp only; omega⟩, hle, fun t => ?_⟩
  rw [testBit_shiftRight, hbits, add_assoc]
  congr 1
  exact decide_eq_decide.mpr (by simp only; omega)

theorem topUp_short (hshort : (topUp data 15 s).bitsLeft < 15) :
    data.length ≤ (topUp data 15 s).cpos + 1 := by
  have hle := hs.cpos
  rw [Mwemu.Decompress.topUp, Mwemu.Decompress.refilled] at hshort ⊢
  split_ifs at hshort ⊢ with hneed hroom
  · simp only at hshort
    omega
  · omega
  · omega

theorem bitsOf_topUp : bitsOf ((topUp data 15 s).bitBuf &&& 0x7FFF) =
    (List.range 15).map fun t => bitAt data (p + t) := by
  have htop := hs.topUp 15
  obtain ⟨q, hcpos, hleft⟩ := htop.words
  rw [bitsOf]
  apply map_congr_left
  intro t ht
  have hmask : (0x7FFF : Nat).testBit t = true := by
    rw [show (0x7FFF : Nat) = 2 ^ 15 - 1 from rfl, testBit_two_pow_sub_one]
    exact decide_eq_true (mem_range.mp ht)
  rw [testBit_and, hmask, Bool.and_true, htop.bits]
  by_cases hin : t < (topUp data 15 s).bitsLeft
  · rw [decide_eq_true hin, Bool.true_and]
  have ht' := mem_range.mp ht
  have hend := topUp_short hs (by omega)
  have hnone : bitAt data (p + t) = false := by
    rw [bitAt, decide_eq_false (by omega), Bool.false_and]
  rw [hnone, Bool.and_false]

end Reservoir

/-! ### A turn -/

def seenAt (data : List UInt8) (p : Nat) : List Bool :=
  (List.range 15).map fun t => bitAt data (p + t)

def IsTable (lens : List Nat) (table : DecodeTable) : Prop :=
  ∀ idx < 2 ^ 15, table idx = entryOf lens (pick lens (bitsOf idx))

theorem meets_true {α : Type} (m : Except Fault α) : Meets (fun _ => True) m fun _ => True := by
  cases m <;> trivial

section Turn

variable {lens : List Nat} {table : DecodeTable} {data : List UInt8} {limit p : Nat}
  {s : HuffState}

theorem IsTable.entry (htable : IsTable lens table) (hs : Reservoir data p s) :
    table ((topUp data 15 s).bitBuf &&& 0x7FFF) = entryOf lens (pick lens (seenAt data p)) := by
  have hlt : (topUp data 15 s).bitBuf &&& 0x7FFF < 2 ^ 15 := by
    rw [show (0x7FFF : Nat) = 2 ^ 15 - 1 from rfl, and_two_pow_sub_one_eq_mod]
    exact mod_lt _ (by decide)
  rw [htable _ hlt, bitsOf_topUp hs]
  rfl

variable {sym : Nat}

theorem symbol_of_entry {len : Nat} (hsym : sym < 2 ^ 9) :
    (sym ||| (len <<< 9)) &&& 0x1FF = sym := by
  rw [show (0x1FF : Nat) = 2 ^ 9 - 1 from rfl, and_two_pow_sub_one_eq_mod,
    or_mod_two_pow, shiftLeft_eq, mul_mod_left, or_zero, mod_eq_of_lt hsym]

section

variable (hdata : data.length ≤ isizeMax)
include hdata

theorem turn_of_none (htable : IsTable lens table)
    (hs : Reservoir data p s) (hpick : pick lens (seenAt data p) = none) :
    huffTurn table data limit s = .ok (.leave (topUp data 15 s)) := by
  have hnone : entryOf lens none >>> 9 = 0 := zero_shiftRight 9
  rw [huffTurn_eq hdata hs.cpos, huffSymbol, htable.entry hs, hpick, if_pos hnone]
  split <;> rfl

theorem meets_turn_literal {allowed : Fault → Prop}
    (htable : IsTable lens table) (hs : Reservoir data p s)
    (hpick : pick lens (seenAt data p) = some sym) (hsym : sym < 256)
    (hunder : (topUp data 15 s).bitsLeft < lengthOf lens sym → allowed .underflow)
    (hover : isizeMax ≤ s.out.length → allowed .capacityOverflow) :
    Meets allowed (huffTurn table data limit s) (LoopStep.Ends
        (fun t => t.out = s.out ++ [UInt8.ofNat sym] ∧ Reservoir data (p + lengthOf lens sym) t)
        (fun t => t.out = s.out ∧ (topUp data 15 s).bitsLeft = 0) fun _ => False) := by
  obtain ⟨-, hpos, hlen⟩ := mem_canonical (mem_canonical_of_pick hpick)
  have hsym' : sym < 2 ^ 9 := by omega
  rw [huffTurn_eq hdata hs.cpos]
  split
  next hempty => exact ⟨topUp_out, hempty⟩
  next hbits =>
    rw [huffSymbol, htable.entry hs, hpick, entryOf, symbol_of_entry hsym', symbol_or_length hsym',
      if_neg (by omega)]
    refine (meets_shrW (by omega)).next ?_
    by_cases hcover : lengthOf lens sym ≤ (topUp data 15 s).bitsLeft
    · refine (meets_subW hcover).next ?_
      rw [if_pos hsym, push]
      simp only [topUp_out]
      by_cases hroom : s.out.length < isizeMax
      · rw [if_pos hroom]
        refine meets_ok.next ?_
        exact ⟨rfl, (hs.topUp 15).take hcover _⟩
      · rw [if_neg hroom]
        exact hover (Nat.le_of_not_lt hroom)
    · rw [subW, if_neg hcover]
      exact hunder (Nat.lt_of_not_le hcover)

omit hdata in
theorem meets_huffOffset_out (extra : Nat) (s : HuffState) :
    Meets (fun _ => True) (huffOffset extra s) fun r => r.2.out = s.out := by
  rw [huffOffset]
  split
  · refine (meets_true _).bind fun bitBuf _ => ?_
    refine (meets_true _).bind fun bitsLeft _ => ?_
    exact Meets.pure rfl
  · exact Meets.pure rfl

theorem meets_huffMatch_first {matchSym : Nat} (hcpos : s.cpos ≤ data.length) (hout : s.out = []) :
    Meets (fun _ => True) (huffMatch data limit matchSym s)
      (LoopStep.Ends (fun _ => False) (fun t => t.out = []) fun _ => False) := by
  rw [huffMatch]
  split
  · exact hout
  refine (meets_true _).bind fun extra _ => ?_
  rw [refillBelow_eq_topUp hdata hcpos]
  refine meets_ok.next ?_
  refine (meets_huffOffset_out extra _).bind ?_
  rintro ⟨offset, t⟩ ht
  have hempty : t.out = [] := ht.trans (topUp_out.trans hout)
  simp only [huffCopy]
  refine (meets_true _).bind fun result _ => ?_
  rcases result with _ | ⟨length, cpos⟩
  · exact hempty
  · refine (meets_true _).bind fun length' _ => ?_
    have hlen : t.out.length = 0 := by rw [hempty, length_nil]
    rw [if_pos (by omega)]
    exact hempty

theorem meets_turn_match (htable : IsTable lens table)
    (hlens : lens.length ≤ 2 ^ 9) (hs : Reservoir data p s)
    (hpick : pick lens (seenAt data p) = some sym) (hsym : ¬ sym < 256) (hout : s.out = []) :
    Meets (fun _ => True) (huffTurn table data limit s)
      (LoopStep.Ends (fun _ => False) (fun t => t.out = []) fun _ => False) := by
  obtain ⟨hsym', hpos, hlen⟩ := mem_canonical (mem_canonical_of_pick hpick)
  have hsym'' : sym < 2 ^ 9 := by omega
  rw [huffTurn_eq hdata hs.cpos]
  split
  next hempty => exact topUp_out.trans hout
  next hbits =>
    rw [huffSymbol, htable.entry hs, hpick, entryOf, symbol_of_entry hsym'',
      symbol_or_length hsym'', if_neg (by omega)]
    refine (meets_shrW (by omega)).next ?_
    by_cases hcover : lengthOf lens sym ≤ (topUp data 15 s).bitsLeft
    · refine (meets_subW hcover).next ?_
      rw [if_neg hsym]
      exact meets_huffMatch_first hdata (hs.topUp 15).cpos (topUp_out.trans hout)
    · rw [subW, if_neg hcover]
      trivial

end

/-! ### Every turn only adds to the output -/

theorem meets_refill_out (data : List UInt8) (s : HuffState) :
    Meets (fun _ => True) (refill data s) fun t => t.out = s.out := by
  rw [refill]
  refine Meets.seq (Sum.elim (fun t => t.out = s.out) fun _ => False) ?_ ?_
  · refine meets_whileLoop_of_stuck trivial (fun t => t.out = s.out) rfl (fun t ht _ => ht) ?_
    intro t ht _
    rw [refillPass]
    split
    · refine (meets_true _).bind fun next _ => ?_
      split
      · refine (meets_true _).bind fun word _ => ?_
        refine (meets_true _).bind fun bitsLeft _ => ?_
        refine (meets_true _).bind fun cpos _ => ?_
        exact Meets.pure ht
      · exact Meets.pure ht
    · exact Meets.pure ht
  · rintro (t | e) ht
    · exact Meets.pure ht
    · exact e.elim

theorem meets_push_out (out : List UInt8) (b : UInt8) :
    Meets (fun _ => True) (push out b) (out <+: ·) := by
  rw [push]
  split
  · exact prefix_append _ _
  · trivial

theorem meets_copyMatch_out (limit offset length : Nat) (ahead : Nat → Nat) (out : List UInt8) :
    Meets (fun _ => True) (copyMatch limit offset ahead length out) (out <+: ·) := by
  rw [copyMatch]
  refine Meets.seq (Sum.elim (out <+: ·) fun _ => False) ?_ ?_
  · refine meets_forRange (fun _ t => out <+: t) (prefix_refl _) (fun _ ht => ht) ?_
    intro i t _ _ ht
    split
    · exact Meets.pure ht
    refine (meets_true _).bind fun src _ => ?_
    refine (meets_true _).bind fun idx _ => ?_
    refine (meets_true _).bind fun b _ => ?_
    refine (meets_push_out t b).bind fun t' ht' => ?_
    exact Meets.pure (ht.trans ht')
  · rintro (t | e) ht
    · exact Meets.pure ht
    · exact e.elim

/-- The output of the state starts with `out`. -/
def Adds (out : List UInt8) : LoopStep HuffState Empty → Prop :=
  LoopStep.Ends (fun t => out <+: t.out) (fun t => out <+: t.out) fun _ => False

theorem meets_huffCopy_out (data : List UInt8) (limit matchSym offset : Nat) (s : HuffState) :
    Meets (fun _ => True) (huffCopy data limit matchSym offset s) (Adds s.out) := by
  rw [huffCopy]
  refine (meets_true _).bind fun result _ => ?_
  rcases result with _ | ⟨length, cpos⟩
  · exact Meets.pure (prefix_refl _)
  refine (meets_true _).bind fun length' _ => ?_
  split
  · exact Meets.pure (prefix_refl _)
  · refine (meets_copyMatch_out _ _ _ _ _).bind fun out hout => ?_
    exact Meets.pure hout

theorem meets_huffMatch_out (data : List UInt8) (limit matchSym : Nat) (s : HuffState) :
    Meets (fun _ => True) (huffMatch data limit matchSym s) (Adds s.out) := by
  rw [huffMatch]
  split
  · exact Meets.pure (prefix_refl _)
  refine (meets_true _).bind fun extra _ => ?_
  have hrefill : Meets (fun _ => True) (refillBelow data extra s) fun t => t.out = s.out := by
    rw [refillBelow]
    split
    · exact meets_refill_out data s
    · exact Meets.pure rfl
  refine hrefill.bind fun t ht => ?_
  refine (meets_huffOffset_out extra t).bind fun r hr => ?_
  rw [← ht, ← hr]
  exact meets_huffCopy_out data limit matchSym r.1 r.2

theorem meets_huffSymbol_out (table : DecodeTable) (data : List UInt8) (limit : Nat)
    (s : HuffState) : Meets (fun _ => True) (huffSymbol table data limit s) (Adds s.out) := by
  rw [huffSymbol]
  split
  · exact Meets.pure (prefix_refl _)
  refine (meets_true _).bind fun bitBuf _ => ?_
  refine (meets_true _).bind fun bitsLeft _ => ?_
  split
  · refine (meets_push_out _ _).bind fun out hout => ?_
    exact Meets.pure hout
  · exact meets_huffMatch_out _ _ _ _

theorem meets_huffTurn_out (table : DecodeTable) (data : List UInt8) (limit : Nat)
    (s : HuffState) : Meets (fun _ => True) (huffTurn table data limit s) (Adds s.out) := by
  rw [huffTurn]
  split
  · refine (meets_refill_out data s).bind fun t ht => ?_
    rw [← ht]
    split
    · exact Meets.pure (prefix_refl _)
    · exact meets_huffSymbol_out _ _ _ _
  · exact meets_huffSymbol_out _ _ _ _

end Turn

end Huff

end Mwemu.Decompress
