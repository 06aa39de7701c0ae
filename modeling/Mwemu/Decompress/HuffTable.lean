import Mwemu.Decompress.HuffReservoir

/-!
# What the decoding table of Xpress holds

The codes are canonical: shorter codes first, and symbols of one length in their order. The table
is indexed by fifteen bits of the stream. `pick` says in terms of codes which symbol the table gives
for fifteen bits: among the symbols whose code *ends* the window, the last one in canonical order. A
decoder would have to take the one whose code begins it.
-/

namespace Mwemu.Decompress

open Mwemu.Lib List BitVec Nat

namespace Huff

/-! ### Canonical codes -/

def lengthOf (lens : List Nat) (sym : Nat) : Nat := lens.getD sym 0

def firstCode (lens : List Nat) : Nat → Nat
  | 0 => 0
  | len + 1 => 2 * (firstCode lens len + if len = 0 then 0 else lens.count len)

def codeOf (lens : List Nat) (sym : Nat) : Nat :=
  firstCode lens (lengthOf lens sym) + (lens.take sym).count (lengthOf lens sym)

def codeBits (lens : List Nat) (sym : Nat) : List Bool :=
  (List.range (lengthOf lens sym)).map fun t =>
    (codeOf lens sym).testBit (lengthOf lens sym - 1 - t)

def symbolsFrom (len : Nat) (lens : List Nat) (sym : Nat) : List Nat :=
  ((lens.zipIdx sym).filter fun p => p.1 == len).map Prod.snd

def canonical (lens : List Nat) (count : Nat) : List Nat :=
  (List.range' 1 count).flatMap fun len => symbolsFrom len lens 0

def pick (lens : List Nat) (window : List Bool) : Option Nat :=
  ((canonical lens 15).filter fun sym => (codeBits lens sym).isSuffixOf window).getLast?

def entryOf (lens : List Nat) : Option Nat → Nat
  | none => 0
  | some sym => sym ||| (lengthOf lens sym <<< 9)

def bitsOf (idx : Nat) : List Bool := (List.range 15).map idx.testBit

theorem mem_symbolsFrom {len sym : Nat} {lens : List Nat} (hmem : sym ∈ symbolsFrom len lens 0) :
    lens[sym]? = some len := by
  obtain ⟨⟨l, s⟩, hfilter, rfl⟩ := mem_map.mp hmem
  obtain ⟨hzip, hlen⟩ := mem_filter.mp hfilter
  rw [← beq_iff_eq.mp hlen]
  exact mk_mem_zipIdx_iff_getElem?.mp hzip

theorem mem_canonical {lens : List Nat} {sym : Nat} (hmem : sym ∈ canonical lens 15) :
    sym < lens.length ∧ 1 ≤ lengthOf lens sym ∧ lengthOf lens sym ≤ 15 := by
  obtain ⟨len, hlen, hsym⟩ := mem_flatMap.mp hmem
  rw [mem_range'_1] at hlen
  have hget := mem_symbolsFrom hsym
  have hlength : lengthOf lens sym = len := by
    rw [lengthOf, getD_eq_getElem?_getD, hget]
    rfl
  exact ⟨(List.getElem?_eq_some_iff.mp hget).1, by omega, by omega⟩

theorem mem_canonical_of_pick {lens : List Nat} {window : List Bool} {sym : Nat}
    (hpick : pick lens window = some sym) : sym ∈ canonical lens 15 :=
  (mem_filter.mp (mem_of_getLast? hpick)).1

/-! ### The entries of one symbol -/

theorem testBit_reversed (code : Nat) {len t : Nat} (hlen : len ≤ 15) (ht : t < len) :
    ((BitVec.ofNat 16 code).reverse.toNat >>> (16 - len)).testBit t =
      code.testBit (len - 1 - t) := by
  rw [testBit_shiftRight, testBit_toNat, getLsbD_reverse, getMsbD_eq_getLsbD, getLsbD_ofNat,
    decide_eq_true (show 16 - len + t < 16 by omega),
    decide_eq_true (show 16 - 1 - (16 - len + t) < 16 by omega), Bool.true_and, Bool.true_and]
  congr 1
  omega

theorem reversed_lt (code : Nat) {len : Nat} (hlen : len ≤ 15) :
    (BitVec.ofNat 16 code).reverse.toNat >>> (16 - len) < 2 ^ len := by
  have hlt : (BitVec.ofNat 16 code).reverse.toNat < 2 ^ 16 := BitVec.isLt _
  rw [Nat.shiftRight_eq_div_pow, Nat.div_lt_iff_lt_mul (Nat.two_pow_pos _), ← Nat.pow_add,
    show len + (16 - len) = 16 by omega]
  exact hlt

theorem in_fill_iff (code : Nat) {len idx : Nat} (hlen : len ≤ 15) (hidx : idx < 2 ^ 15) :
    (let base := ((BitVec.ofNat 16 code).reverse.toNat >>> (16 - len)) <<< (15 - len)
     base ≤ idx ∧ idx < base + 1 <<< (15 - len)) ↔
    ∀ t < len, idx.testBit (15 - len + t) = code.testBit (len - 1 - t) := by
  have hrev := reversed_lt code hlen
  have htest : ∀ t < len, ((BitVec.ofNat 16 code).reverse.toNat >>> (16 - len)).testBit t =
      code.testBit (len - 1 - t) := fun t => testBit_reversed code hlen
  generalize (BitVec.ofNat 16 code).reverse.toNat >>> (16 - len) = rev at hrev htest
  have hhigh : idx >>> (15 - len) < 2 ^ len := by
    rw [Nat.shiftRight_eq_div_pow, Nat.div_lt_iff_lt_mul (Nat.two_pow_pos _), ← Nat.pow_add,
      show len + (15 - len) = 15 by omega]
    exact hidx
  have hrange : (rev <<< (15 - len) ≤ idx ∧ idx < rev <<< (15 - len) + 1 <<< (15 - len)) ↔
      idx >>> (15 - len) = rev := by
    rw [Nat.shiftLeft_eq, Nat.shiftLeft_eq, Nat.one_mul, ← Nat.succ_mul, Nat.shiftRight_eq_div_pow]
    have hpos : 0 < 2 ^ (15 - len) := Nat.two_pow_pos _
    rw [← le_div_iff_mul_le hpos, ← div_lt_iff_lt_mul hpos]
    omega
  refine hrange.trans ⟨fun heq t ht => ?_, fun hbits => eq_of_testBit_eq fun t => ?_⟩
  · rw [← htest t ht, ← heq, testBit_shiftRight]
  by_cases ht : t < len
  · rw [testBit_shiftRight, hbits t ht, htest t ht]
  · rw [Nat.testBit_lt_two_pow (Nat.lt_of_lt_of_le hhigh (Nat.pow_le_pow_right (by decide)
      (Nat.le_of_not_lt ht))), Nat.testBit_lt_two_pow (Nat.lt_of_lt_of_le hrev
      (Nat.pow_le_pow_right (by decide) (Nat.le_of_not_lt ht)))]

theorem isSuffixOf_bitsOf_iff {lens : List Nat} {sym idx : Nat} (hlen : lengthOf lens sym ≤ 15) :
    (codeBits lens sym).isSuffixOf (bitsOf idx) = true ↔
      ∀ t < lengthOf lens sym, idx.testBit (15 - lengthOf lens sym + t) =
        (codeOf lens sym).testBit (lengthOf lens sym - 1 - t) := by
  have hcode : (codeBits lens sym).length = lengthOf lens sym := by
    rw [codeBits, length_map, length_range]
  have hbits : (bitsOf idx).length = 15 := by rw [bitsOf, length_map, length_range]
  rw [isSuffixOf_iff_suffix, suffix_iff_eq_drop, hcode, hbits]
  constructor
  · intro heq t ht
    have hget := congrArg (·[t]?) heq
    simp only [codeBits, bitsOf, List.getElem?_drop, List.getElem?_map] at hget
    rw [List.getElem?_range ht, List.getElem?_range (by omega)] at hget
    exact (Option.some.inj hget).symm
  intro hall
  apply ext_getElem?
  intro t
  rw [List.getElem?_drop, codeBits, bitsOf, List.getElem?_map, List.getElem?_map]
  by_cases ht : t < lengthOf lens sym
  · rw [List.getElem?_range ht, List.getElem?_range (by omega), Option.map_some, Option.map_some,
      hall t ht]
  · rw [List.getElem?_eq_none (by rw [length_range]; omega),
      List.getElem?_eq_none (by rw [length_range]; omega)]
    rfl

/-! ### The loops -/

section Loops

variable {allowed : Fault → Prop} {lens : List Nat}

/-- The table after the symbols `done`: the last of them with its code at the end of the bits. -/
def Holds (lens done : List Nat) (table : DecodeTable) : Prop :=
  ∀ idx < 2 ^ 15, table idx = entryOf lens
    (done.filter fun sym => (codeBits lens sym).isSuffixOf (bitsOf idx)).getLast?

theorem meets_fillTable_range {base fillCount entry : Nat} {table : DecodeTable}
    (hrange : base + fillCount < 2 ^ 32) :
    Meets allowed (fillTable base fillCount entry table) (fun table' => ∀ idx < 2 ^ 15,
      table' idx = if base ≤ idx ∧ idx < base + fillCount then entry else table idx) := by
  let filled (j : Nat) (table' : DecodeTable) : Prop := ∀ idx < 2 ^ 15,
    table' idx = if base ≤ idx ∧ idx < base + j then entry else table idx
  rw [fillTable]
  refine Meets.seq (Sum.elim (filled fillCount) fun _ => False) ?_ ?_
  · refine meets_forRange filled ?_ (fun t ht => by rwa [zero_add] at ht) ?_
    · intro idx _
      rw [if_neg (by omega)]
    intro j table' _ hj hfilled
    refine (meets_addW (by omega)).next ?_
    refine Meets.pure fun idx hidx => ?_
    have hold := hfilled idx hidx
    by_cases heq : idx = base + j
    · rw [if_pos (heq ▸ hidx : base + j < decodeTableLen), heq, Function.update_self,
        if_pos (by omega)]
    have hother : (if base + j < decodeTableLen then Function.update table' (base + j) entry
        else table') idx = table' idx := by
      split
      · exact Function.update_of_ne heq _ _
      · rfl
    rw [hother, hold]
    exact if_congr (by omega) rfl rfl
  · rintro (table' | e) htable'
    · exact Meets.pure htable'
    · exact e.elim

theorem symbolsFrom_cons (len l sym : Nat) (rest : List Nat) :
    symbolsFrom len (l :: rest) sym =
      (if l = len then [sym] else []) ++ symbolsFrom len rest (sym + 1) := by
  rw [symbolsFrom, zipIdx_cons]
  by_cases heq : l = len
  · rw [filter_cons_of_pos (by simpa using heq), if_pos heq]
    rfl
  · rw [filter_cons_of_neg (by simpa using heq), if_neg heq]
    rfl

theorem Holds.fill {done : List Nat} {table table' : DecodeTable} {sym : Nat}
    (hholds : Holds lens done table) (hlen : lengthOf lens sym ≤ 15)
    (hfill : ∀ idx < 2 ^ 15, table' idx =
      if (let base := ((BitVec.ofNat 16 (codeOf lens sym)).reverse.toNat >>>
            (16 - lengthOf lens sym)) <<< (15 - lengthOf lens sym)
          base ≤ idx ∧ idx < base + 1 <<< (15 - lengthOf lens sym)) then
        sym ||| (lengthOf lens sym <<< 9) else table idx) :
    Holds lens (done ++ [sym]) table' := by
  intro idx hidx
  have hiff := (in_fill_iff (codeOf lens sym) hlen hidx).trans (isSuffixOf_bitsOf_iff hlen).symm
  let ends (sym : Nat) : Bool := (codeBits lens sym).isSuffixOf (bitsOf idx)
  have hlast : ((done ++ [sym]).filter ends).getLast? =
      if ends sym then some sym else (done.filter ends).getLast? := by
    rw [filter_append]
    by_cases hends : ends sym = true
    · rw [filter_cons_of_pos hends, filter_nil, List.getLast?_concat, if_pos hends]
    · rw [filter_cons_of_neg hends, filter_nil, append_nil, if_neg hends]
  rw [hfill idx hidx, hlast]
  by_cases hends : ends sym = true
  · rw [if_pos (hiff.mpr hends), if_pos hends]
    rfl
  · rw [if_neg (mt hiff.mp hends), if_neg hends]
    exact hholds idx hidx

theorem meets_tableOfLength_holds {len : Nat} (hpos : 1 ≤ len) (hlen : len ≤ 15) :
    ∀ (rest before done : List Nat) (table : DecodeTable), lens = before ++ rest →
      lens.length ≤ 2 ^ 9 → firstCode lens len + lens.length < 2 ^ 32 → Holds lens done table →
      Meets allowed (tableOfLength len rest before.length
          (table, firstCode lens len + before.count len))
        (fun s => Holds lens (done ++ symbolsFrom len rest before.length) s.1 ∧
          s.2 = firstCode lens len + lens.count len)
  | [], before, done, table, heq, _, _, hholds => by
      refine Meets.pure ⟨?_, ?_⟩
      · rw [symbolsFrom, List.zipIdx_nil, List.filter_nil, List.map_nil, List.append_nil]
        exact hholds
      · rw [heq, List.append_nil]
  | l :: rest, before, done, table, heq, hsize, hcode, hholds => by
      have hrest : lens = (before ++ [l]) ++ rest := by rw [heq, List.append_assoc]; rfl
      have hnext : (before ++ [l]).length = before.length + 1 := by
        rw [length_append, length_singleton]
      have hlength : lengthOf lens before.length = l := by
        rw [lengthOf, heq, getD_eq_getElem?_getD, List.getElem?_append_right (le_refl _),
          Nat.sub_self]
        rfl
      have hcount : before.count len < lens.length := by
        have hle : before.count len ≤ before.length := count_le_length
        rw [heq, length_append, length_cons]
        omega
      rw [symbolsFrom_cons, tableOfLength]
      by_cases hl : l = len
      · subst hl
        rw [if_neg (not_not.mpr rfl), if_pos rfl]
        have hcodeOf : codeOf lens before.length = firstCode lens l + before.count l := by
          rw [codeOf, hlength, heq, take_left]
        have hbase := reversed_shl_lt (firstCode lens l + before.count l) hpos hlen
        have hfill : 1 <<< (15 - l) ≤ 2 ^ 15 := by
          rw [one_shiftLeft]
          exact Nat.pow_le_pow_right (by decide) (by omega)
        refine (meets_shlW (by omega)).next ?_
        refine (meets_fillTable_range (by omega)).bind fun table' htable' => ?_
        refine (meets_addW (by omega)).next ?_
        have hholds' : Holds lens (done ++ [before.length]) table' := by
          refine hholds.fill (hlength.symm ▸ hlen) ?_
          rw [hlength, hcodeOf]
          exact htable'
        have hcount' : (before ++ [l]).count l = before.count l + 1 := by
          rw [count_append, count_singleton_self]
        have hrec := meets_tableOfLength_holds hpos hlen rest (before ++ [l])
          (done ++ [before.length]) table' hrest hsize hcode hholds'
        rw [hnext, hcount', ← add_assoc, List.append_assoc] at hrec
        exact hrec
      · rw [if_pos hl, if_neg hl, nil_append]
        have hcount' : (before ++ [l]).count len = before.count len := by
          rw [count_append, count_singleton, beq_false_of_ne hl]
          rfl
        have hrec := meets_tableOfLength_holds hpos hlen rest (before ++ [l]) done table hrest hsize
          hcode hholds
        rw [hnext, hcount'] at hrec
        exact hrec

theorem firstCode_le (hsize : lens.length ≤ 2 ^ 9) (len : Nat) :
    firstCode lens len + 1024 ≤ 1024 * 2 ^ len := by
  induction len with
  | zero => exact le_refl _
  | succ len ih =>
    have hcount : lens.count len ≤ lens.length := count_le_length
    rw [firstCode, pow_succ]
    split <;> omega

theorem canonical_succ (lens : List Nat) (count : Nat) :
    canonical lens (count + 1) = canonical lens count ++ symbolsFrom (count + 1) lens 0 := by
  rw [canonical, List.range'_1_concat, flatMap_append, flatMap_singleton, add_comm 1]
  rfl

theorem meets_buildTable_pick (hsize : lens.length ≤ 2 ^ 9) :
    Meets allowed (buildTable lens)
      (fun table => ∀ idx < 2 ^ 15, table idx = entryOf lens (pick lens (bitsOf idx))) := by
  rw [buildTable]
  refine Meets.seq (Sum.elim (fun s => Holds lens (canonical lens 15) s.1) fun _ => False) ?_ ?_
  · refine meets_forRange
      (fun i s => Holds lens (canonical lens (i - 1)) s.1 ∧ s.2 = firstCode lens i) ⟨?_, rfl⟩
      (fun _ hs => hs.1) ?_
    · intro idx _
      rfl
    rintro i ⟨table, code⟩ hi hi' ⟨hholds, rfl⟩
    have hcode := firstCode_le hsize i
    have hpow : 2 ^ i ≤ 2 ^ 15 := Nat.pow_le_pow_right (by decide) (by omega)
    have hcount : lens.count i ≤ lens.length := count_le_length
    have hrun : Meets allowed (tableOfLength i lens 0 (table, firstCode lens i))
        (fun s => Holds lens (canonical lens (i - 1) ++ symbolsFrom i lens 0) s.1 ∧
          s.2 = firstCode lens i + lens.count i) :=
      meets_tableOfLength_holds hi (by omega) lens [] (canonical lens (i - 1)) table rfl hsize
        (by omega) hholds
    refine hrun.bind ?_
    rintro ⟨table', _⟩ ⟨hholds', rfl⟩
    have hshl : (firstCode lens i + lens.count i) <<< 1 = firstCode lens (i + 1) := by
      rw [firstCode, if_neg (by omega), Nat.shiftLeft_eq]
      omega
    have hcode' := firstCode_le hsize (i + 1)
    have hpow' : 2 ^ (i + 1) ≤ 2 ^ 16 := Nat.pow_le_pow_right (by decide) (by omega)
    refine (meets_shlW (by rw [hshl]; omega)).next ?_
    refine Meets.pure ⟨?_, hshl⟩
    obtain ⟨k, rfl⟩ : ∃ k, i = k + 1 := ⟨i - 1, by omega⟩
    rw [Nat.add_sub_cancel, canonical_succ]
    exact hholds'
  · rintro (s | e) hs
    · exact Meets.pure hs
    · exact e.elim

end Loops

end Huff

end Mwemu.Decompress
