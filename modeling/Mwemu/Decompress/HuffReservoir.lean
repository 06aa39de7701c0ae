import Mwemu.Decompress.XpressHuff

/-!
# The reservoir of the Huffman decoder

A turn of the decoder tops the reservoir up with one word of the block, if there is one, before it
takes a code out.
-/

namespace Mwemu.Decompress

open Mwemu.Lib Nat

/-! ### The table -/

section Table

variable {bitLen : Nat}

theorem symbol_or_length {sym : Nat} (hsym : sym < 2 ^ 9) :
    (sym ||| (bitLen <<< 9)) >>> 9 = bitLen := by
  rw [shiftRight_or_distrib, shiftLeft_shiftRight, shiftRight_eq_div_pow,
    div_eq_of_lt hsym, zero_or]

theorem reversed_shl_lt (code : Nat) (hbit : 1 ≤ bitLen) (hbit' : bitLen ≤ 15) :
    ((BitVec.ofNat 16 code).reverse.toNat >>> (16 - bitLen)) <<< (15 - bitLen) < 2 ^ 15 := by
  have hlt : (BitVec.ofNat 16 code).reverse.toNat < 2 ^ 16 := BitVec.isLt _
  have hrev : (BitVec.ofNat 16 code).reverse.toNat >>> (16 - bitLen) < 2 ^ bitLen := by
    rw [Nat.shiftRight_eq_div_pow, Nat.div_lt_iff_lt_mul (Nat.two_pow_pos _), ← Nat.pow_add,
      show bitLen + (16 - bitLen) = 16 by omega]
    exact hlt
  rw [shiftLeft_eq]
  calc _ < 2 ^ bitLen * 2 ^ (15 - bitLen) :=
        Nat.mul_lt_mul_of_pos_right hrev (Nat.two_pow_pos _)
    _ = 2 ^ 15 := by rw [← Nat.pow_add, show bitLen + (15 - bitLen) = 15 by omega]

end Table

/-! ### The reservoir -/

def wordAt (data : List UInt8) (i : Nat) : Nat :=
  (data[i]?.getD 0).toNat + 2 ^ 8 * (data[i + 1]?.getD 0).toNat

/-- What `refill` does: it runs at most once, since one word fills the reservoir. -/
def refilled (data : List UInt8) (s : HuffState) : HuffState :=
  if s.bitsLeft < 16 ∧ s.cpos + 1 < data.length then
    { s with
      bitBuf := (s.bitBuf ||| (wordAt data s.cpos <<< s.bitsLeft)) % 2 ^ 32
      bitsLeft := s.bitsLeft + 16
      cpos := s.cpos + 2 }
  else s

theorem readU16Le_eq_wordAt {data : List UInt8} {i : Nat} (hi : i + 2 ≤ data.length) :
    readU16Le data i = .ok (wordAt data i) := by
  have hget : ∀ j, j < data.length → getByte data j = .ok (data[j]?.getD 0) := by
    intro j hj
    rw [getByte, List.getElem?_eq_getElem hj, Option.getD_some]
  rw [readU16Le, hget i (by omega), hget (i + 1) (by omega)]
  rfl

section Refill

variable {data : List UInt8} {s : HuffState}

theorem refillPass_of_room (hdata : data.length ≤ isizeMax) (hbits : s.bitsLeft < 16)
    (hmore : s.cpos + 1 < data.length) : refillPass data s = .ok (.next (refilled data s)) := by
  have hisize : isizeMax < 2 ^ 63 := by decide
  rw [refillPass, if_pos hbits, addW, if_pos (by omega), readU16Le_eq_wordAt (by omega), addW,
    if_pos (by omega), addW, if_pos (by omega), refilled, if_pos ⟨hbits, hmore⟩]
  exact if_pos hmore

theorem refillPass_of_full (hdata : data.length ≤ isizeMax) (hcpos : s.cpos ≤ data.length)
    (hfull : ¬ (s.bitsLeft < 16 ∧ s.cpos + 1 < data.length)) :
    refillPass data s = .ok (.leave s) := by
  have hisize : isizeMax < 2 ^ 63 := by decide
  rw [refillPass]
  split
  case isTrue hbits =>
      rw [addW, if_pos (by omega)]
      exact if_neg fun hmore => hfull ⟨hbits, hmore⟩
  case isFalse => rfl

theorem refill_eq_refilled (hdata : data.length ≤ isizeMax) (hcpos : s.cpos ≤ data.length) :
    refill data s = .ok (refilled data s) := by
  rw [refill]
  by_cases hroom : s.bitsLeft < 16 ∧ s.cpos + 1 < data.length
  · obtain ⟨fuel, hfuel⟩ : ∃ fuel, data.length = fuel + 1 := ⟨data.length - 1, by omega⟩
    have hstate : (refilled data s).bitsLeft = s.bitsLeft + 16 ∧
        (refilled data s).cpos = s.cpos + 2 := by
      rw [refilled, if_pos hroom]
      exact ⟨rfl, rfl⟩
    rw [whileLoop_next rfl (refillPass_of_room hdata hroom.1 hroom.2), hfuel,
      whileLoop_leave rfl (refillPass_of_full hdata (by omega) (by omega))]
    rfl
  · rw [whileLoop_leave rfl (refillPass_of_full hdata hcpos hroom), refilled, if_neg hroom]
    rfl

/-- The reservoir after it has been refilled if it holds fewer than `need` bits. -/
def topUp (data : List UInt8) (need : Nat) (s : HuffState) : HuffState :=
  if s.bitsLeft < need then refilled data s else s

theorem refillBelow_eq_topUp {need : Nat} (hdata : data.length ≤ isizeMax)
    (hcpos : s.cpos ≤ data.length) : refillBelow data need s = .ok (topUp data need s) := by
  rw [refillBelow, topUp]
  split
  · exact refill_eq_refilled hdata hcpos
  · rfl

end Refill

/-! ### A turn -/

section Turn

variable {table : DecodeTable} {data : List UInt8} {limit : Nat} {s : HuffState}

theorem topUp_out {need : Nat} : (topUp data need s).out = s.out := by
  rw [topUp, refilled]
  split_ifs <;> rfl

theorem huffTurn_eq (hdata : data.length ≤ isizeMax) (hcpos : s.cpos ≤ data.length) :
    huffTurn table data limit s =
      if (topUp data 15 s).bitsLeft = 0 then .ok (.leave (topUp data 15 s))
      else huffSymbol table data limit (topUp data 15 s) := by
  rw [huffTurn, topUp]
  split
  · rw [refill_eq_refilled hdata hcpos]
    rfl
  · next hfull => rw [if_neg (by omega)]

end Turn

end Mwemu.Decompress
