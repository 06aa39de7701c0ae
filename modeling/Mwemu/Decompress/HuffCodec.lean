import Mwemu.Decompress.HuffTurn
import Mwemu.Decompress.XpressCodec

/-!
# What the Huffman decoder makes of an encoded block

The format: 256 bytes with the lengths of the 512 codes, then the codes of the tokens in words of
sixteen bits, the highest bit first. A match is a symbol, the bytes of a long length and the bits of
its offset below the highest one. A reader takes two words in advance and each further one when it
has used up all but one, so the bytes of a length stand between the words.

The decoder takes the bits of a word from the lowest one on, and the symbol that `pick` gives for
the next fifteen of them.
-/

namespace Mwemu.Decompress

open Mwemu.Lib Mwemu.Lib.Lz77 List Option Nat
open Lznt1 (u16Bytes meets_ok)
open Xpress (u32Bytes)

namespace Huff

/-! ### The format -/

abbrev Token := Lz77.Token UInt8

/-- Lengths of a complete code. A symbol of length 0 has no code. -/
structure ValidLens (lens : List Nat) : Prop where
  size : lens.length = 512
  short : ∀ len ∈ lens, len ≤ 15
  kraft : (lens.map fun len => if len = 0 then 0 else 2 ^ (15 - len)).sum = 2 ^ 15

def symbolOf : Token → Nat
  | .literal b => b.toNat
  | .copy disp len => 256 + (16 * disp.log2 + min (len - 3) 15)

def TokenFits (lens : List Nat) (cur : Nat) (t : Token) : Prop :=
  0 < lengthOf lens (symbolOf t) ∧
    match t with
    | .literal _ => True
    | .copy disp len => (1 ≤ disp ∧ disp ≤ cur) ∧ disp < 2 ^ 16 ∧ 3 ≤ len ∧ len - 3 < 2 ^ 32

instance (lens : List Nat) (cur : Nat) (t : Token) : Decidable (TokenFits lens cur t) := by
  cases t <;> unfold TokenFits <;> infer_instance

/-- What a token adds to the block: bits of the stream, or bytes between its words. -/
inductive Piece where
  | bits (bs : List Bool)
  | raw (bytes : List UInt8)
  deriving DecidableEq, Repr

def Piece.stream : Piece → List Bool
  | bits bs => bs
  | raw _ => []

def lengthTail (len : Nat) : List UInt8 :=
  if len < 18 then []
  else if len < 273 then [UInt8.ofNat (len - 18)]
  else 255 :: if len - 3 < 2 ^ 16 then u16Bytes (len - 3) else u16Bytes 0 ++ u32Bytes (len - 3)

def offsetBits (disp : Nat) : List Bool :=
  (List.range disp.log2).map fun t => disp.testBit (disp.log2 - 1 - t)

def pieces (lens : List Nat) (t : Token) : List Piece :=
  .bits (codeBits lens (symbolOf t)) ::
    match t with
    | .literal _ => []
    | .copy disp len => [.raw (lengthTail len), .bits (offsetBits disp)]

def streamOf (lens : List Nat) (ts : List Token) : List Bool :=
  (ts.flatMap (pieces lens)).flatMap Piece.stream

def word (stream : List Bool) (k : Nat) : Nat :=
  Nat.ofBits fun j : Fin 16 => stream.getD (16 * k + (15 - j)) false

def layout (stream : List Bool) : Nat → Nat → List Piece → List UInt8
  | _, _, [] => []
  | used, k, .raw bytes :: ps => bytes ++ layout stream used k ps
  | used, k, .bits bs :: ps =>
    if 16 * (k - 1) < used + bs.length then
      u16Bytes (word stream k) ++ layout stream (used + bs.length) (k + 1) ps
    else layout stream (used + bs.length) k ps

def encodeData (lens : List Nat) (ts : List Token) : List UInt8 :=
  u16Bytes (word (streamOf lens ts) 0) ++ (u16Bytes (word (streamOf lens ts) 1) ++
    layout (streamOf lens ts) 0 2 (ts.flatMap (pieces lens)))

def tableBytes (lens : List Nat) : List UInt8 :=
  (List.range 256).map fun i =>
    UInt8.ofNat (lengthOf lens (2 * i) + 16 * lengthOf lens (2 * i + 1))

def encode (lens : List Nat) (ts : List Token) : List UInt8 :=
  tableBytes lens ++ encodeData lens ts

/-! ### What the decoder sees -/

def mirror (n : Nat) : Nat := 16 * (n / 16) + (15 - n % 16)

def window (stream : List Bool) (p : Nat) : List Bool :=
  (List.range 15).map fun t => stream.getD (mirror (p + t)) false

/-- The decoder takes each byte's symbol, with its code at `p` and the next ones behind it. -/
def Seen (lens : List Nat) (stream : List Bool) : Nat → List UInt8 → Prop
  | _, [] => True
  | p, b :: bs => pick lens (window stream p) = some b.toNat ∧
      Seen lens stream (p + lengthOf lens b.toNat) bs

/-- The decoder takes no match for a byte. -/
def Quiet (lens : List Nat) (stream : List Bool) : Nat → List UInt8 → Prop
  | _, [] => True
  | p, b :: bs => (∀ sym, pick lens (window stream p) = some sym → sym < 256) ∧
      Quiet lens stream (p + lengthOf lens b.toNat) bs

/-! ### The block -/

theorem flatMap_range_pairs (g : Nat → Nat) (n : Nat) :
    ((List.range n).flatMap fun i => [g (2 * i), g (2 * i + 1)]) = (List.range (2 * n)).map g := by
  induction n with
  | zero => rfl
  | succ n ih =>
    rw [range_succ, flatMap_append, ih, mul_succ, range_succ, range_succ,
      map_append, map_append, append_assoc]
    rfl

variable {lens : List Nat}

theorem lengthOf_le (hlens : ValidLens lens) (sym : Nat) : lengthOf lens sym ≤ 15 := by
  rw [lengthOf, getD_eq_getElem?_getD]
  cases hget : lens[sym]? with
  | none => exact zero_le _
  | some len => exact hlens.short len (mem_of_getElem? hget)

theorem huffLens_tableBytes (hlens : ValidLens lens) : huffLens (tableBytes lens) = lens := by
  let byteOf (i : Nat) : UInt8 :=
    UInt8.ofNat (lengthOf lens (2 * i) + 16 * lengthOf lens (2 * i + 1))
  have hpair : ∀ i, [(byteOf i).toNat &&& 0x0F, ((byteOf i).toNat >>> 4) &&& 0x0F] =
      [lengthOf lens (2 * i), lengthOf lens (2 * i + 1)] := by
    intro i
    have hlow := lengthOf_le hlens (2 * i)
    have hhigh := lengthOf_le hlens (2 * i + 1)
    simp only [byteOf]
    rw [UInt8.toNat_ofNat', mod_eq_of_lt (by omega), show (0x0F : Nat) = 2 ^ 4 - 1 from rfl,
      and_two_pow_sub_one_eq_mod, and_two_pow_sub_one_eq_mod, shiftRight_eq_div_pow]
    congr 1
    · omega
    · congr 1
      omega
  rw [huffLens, tableBytes, flatMap_map]
  refine (congrArg (fun f => (List.range 256).flatMap f) (funext hpair)).trans ?_
  rw [flatMap_range_pairs]
  apply ext_getElem?
  intro i
  rw [List.getElem?_map]
  by_cases hi : i < lens.length
  · rw [List.getElem?_range (by rw [hlens.size] at hi; exact hi), List.getElem?_eq_getElem hi,
      map_some, lengthOf, getD_eq_getElem?_getD, List.getElem?_eq_getElem hi]
    rfl
  · rw [List.getElem?_eq_none (by rw [length_range]; rw [hlens.size] at hi; omega),
      List.getElem?_eq_none (by omega)]
    rfl

theorem length_tableBytes (lens : List Nat) : (tableBytes lens).length = 256 := by
  rw [tableBytes, length_map, length_range]

section Block

variable {allowed : Fault → Prop} {lens : List Nat} {data : List UInt8} {maxOutput : Nat}

def blockOf (table : DecodeTable) (data : List UInt8) (maxOutput : Nat) : HuffBlock :=
  { table, data, limit := min 65536 maxOutput, chunkEnd := 256 + data.length }

theorem meets_huffBlock_table (hlens : ValidLens lens) (hdata : data ≠ [])
    (hsize : data.length ≤ 65536) :
    Meets allowed (huffBlock (tableBytes lens ++ data) maxOutput huffStart)
      (fun r => ∃ table, IsTable lens table ∧ r = some (blockOf table data maxOutput)) := by
  have htable := length_tableBytes lens
  have hpos := length_pos_of_ne_nil hdata
  have hlen : (tableBytes lens ++ data).length = 256 + data.length := by
    rw [length_append, htable]
  have hhead : ((tableBytes lens ++ data).drop 0).take (256 - 0) = tableBytes lens := by
    rw [drop_zero, ← htable]
    exact take_left
  have htail : ((tableBytes lens ++ data).drop 256).take (256 + data.length - 256) = data := by
    rw [← htable, drop_left, Nat.add_sub_cancel_left, take_length]
  have hstart : huffStart.pos = 0 ∧ huffStart.out.length = 0 := ⟨rfl, rfl⟩
  rw [huffBlock, hstart.1, hstart.2]
  refine (meets_addW (by decide)).next ?_
  rw [if_neg (by omega), getSlice, if_pos ⟨by omega, by omega⟩, hhead]
  refine meets_ok.next ?_
  rw [huffLens_tableBytes hlens]
  refine (meets_buildTable_pick (le_of_eq hlens.size)).bind fun table htable' => ?_
  refine (meets_addW (by decide)).next ?_
  have hend : min (0 + 256 + 65536) (tableBytes lens ++ data).length = 256 + data.length := by
    omega
  simp only [hend]
  rw [getSlice, if_pos ⟨by omega, by omega⟩, htail]
  refine meets_ok.next ?_
  refine (meets_addW (by decide)).next ?_
  rw [if_neg (by simpa using hdata)]
  exact Meets.pure ⟨table, htable', rfl⟩

def first (data : List UInt8) : HuffState :=
  refilled data { out := [], bitBuf := 0, bitsLeft := 0, cpos := 0 }

theorem reservoir_first (data : List UInt8) : Reservoir data 0 (first data) := by
  have hempty : Reservoir data 0 { out := [], bitBuf := 0, bitsLeft := 0, cpos := 0 } :=
    ⟨⟨0, rfl, rfl⟩, zero_le _, fun t => by simp⟩
  exact hempty.refilled

theorem out_first (data : List UInt8) : (first data).out = [] := by
  rw [first, refilled]
  split <;> rfl

theorem meets_decompress_block (hlens : ValidLens lens) (hdata : data ≠ [])
    (hsize : data.length ≤ 65536) (hmax : 0 < maxOutput) (post : List UInt8 → Prop)
    (hloop : ∀ table, IsTable lens table → Meets allowed
      (whileLoop .outOfFuel (blockOf table data maxOutput).more (blockOf table data maxOutput).turn
        ((blockOf table data maxOutput).limit + 1) (first data))
      (Sum.elim (fun t => post t.out) fun _ => False)) :
    Meets allowed (xpressHuffDecompress (tableBytes lens ++ data) maxOutput)
      (fun r => ∃ out, post out ∧ r = if out.isEmpty then none else some out) := by
  have hlen : (tableBytes lens ++ data).length = 256 + data.length := by
    rw [length_append, length_tableBytes]
  have hisize : data.length ≤ isizeMax := le_trans hsize (by decide)
  let done (t : Cursor) : Prop := t.pos = 256 + data.length ∧ post t.out
  have hblock : Meets allowed (huffDecodeBlock (tableBytes lens ++ data) maxOutput huffStart)
      (LoopStep.Ends done (fun _ => False) fun _ => False) := by
    rw [huffDecodeBlock]
    refine (meets_huffBlock_table hlens hdata hsize).bind ?_
    rintro _ ⟨table, htable, rfl⟩
    have hstart : (blockOf table data maxOutput).start huffStart.out = .ok (first data) :=
      refill_eq_refilled hisize (zero_le _)
    simp only [hstart]
    refine meets_ok.next ?_
    refine (hloop table htable).bind ?_
    rintro (t | e) ht
    · exact Meets.pure ⟨rfl, ht⟩
    · exact e.elim
  rw [xpressHuffDecompress]
  refine Meets.seq (Sum.elim done fun _ => False) ?_ ?_
  · refine meets_whileLoop (fun t => 256 + data.length - t.pos)
      (fun t => t = huffStart ∨ done t) (Or.inl rfl) (by simp only [hlen]; omega) ?_ ?_
    · rintro t (rfl | ht) hclosed
      · rw [huffMore, huffStart, hlen] at hclosed
        simp only [Bool.and_eq_false_iff, decide_eq_false_iff_not, length_nil] at hclosed
        omega
      · exact ht
    rintro t - (rfl | ht) hopen
    · refine hblock.mono ?_
      rintro (u | u | r) hflow
      · exact ⟨Or.inr hflow, by simp only [hflow.1, huffStart]; omega⟩
      · exact hflow.elim
      · exact hflow
    · have hend := ht.1
      rw [huffMore, hlen, Bool.and_eq_true, decide_eq_true_iff] at hopen
      omega
  · rintro (t | e) ht
    · refine Meets.of_eq_ok ?_ ⟨t.out, ht.2, rfl⟩
      show (if t.out.isEmpty then pure none else pure (some t.out)) = _
      split <;> rfl
    · exact e.elim

end Block

/-! ### The words of the stream -/

theorem word_lt (stream : List Bool) (k : Nat) : word stream k < 2 ^ 16 :=
  ofBits_lt_two_pow _

theorem testBit_word (stream : List Bool) (k : Nat) {j : Nat} (hj : j < 16) :
    (word stream k).testBit j = stream.getD (16 * k + (15 - j)) false :=
  testBit_ofBits_lt _ j hj

variable {data : List UInt8}

theorem wordAt_of_at {pos value : Nat} (hvalue : value < 2 ^ 16)
    (hat : At data pos (u16Bytes value)) : wordAt data pos = value ∧ pos + 1 < data.length := by
  have htail : At data (pos + 1) [UInt8.ofNat (value / 256)] :=
    At.tail (a := [UInt8.ofNat (value % 256)]) hat
  have hlow := Lznt1.getElem?_at hat
  have hhigh := Lznt1.getElem?_at htail
  refine ⟨?_, (List.getElem?_eq_some_iff.mp hhigh).1⟩
  rw [wordAt, hlow, hhigh, getD_some, getD_some, UInt8.toNat_ofNat', UInt8.toNat_ofNat']
  omega

variable {stream : List Bool} {n : Nat}

theorem bitAt_of_word (hat : At data (2 * (n / 16)) (u16Bytes (word stream (n / 16)))) :
    bitAt data n = stream.getD (mirror n) false := by
  obtain ⟨hword, hlt⟩ := wordAt_of_at (word_lt stream (n / 16)) hat
  rw [bitAt, decide_eq_true hlt, Bool.true_and, hword,
    testBit_word stream (n / 16) (mod_lt n (by decide)), mirror]

theorem length_u16Bytes (value : Nat) : (u16Bytes value).length = 2 := rfl

def wordsOf (stream : List Bool) (k : Nat) : List UInt8 :=
  (List.range k).flatMap fun i => u16Bytes (word stream i)

theorem length_wordsOf (stream : List Bool) (k : Nat) : (wordsOf stream k).length = 2 * k := by
  rw [wordsOf, length_flatMap]
  simp [length_u16Bytes, mul_comm]

theorem wordsOf_succ (stream : List Bool) (k : Nat) :
    wordsOf stream (k + 1) = wordsOf stream k ++ u16Bytes (word stream k) := by
  rw [wordsOf, range_succ, flatMap_append, flatMap_singleton]
  rfl

theorem at_wordsOf {k : Nat} (hk : k < n) :
    At (wordsOf stream n) (2 * k) (u16Bytes (word stream k)) := by
  have hat : At (wordsOf stream n) 0 ((List.range n).flatMap fun i => u16Bytes (word stream i)) :=
    prefix_refl _
  have hk' : k < (List.range n).length := by rwa [length_range]
  have hinner := hat.flatMap hk'
  rwa [length_flatMap_take (fun i _ => length_u16Bytes (word stream i)) (le_of_lt hk'),
    zero_add, getElem_range] at hinner

theorem seenAt_wordsOf (hlen : stream.length ≤ 16 * n) (p : Nat) :
    seenAt (wordsOf stream n) p = window stream p := by
  rw [seenAt, window]
  apply map_congr_left
  intro t _
  by_cases hin : (p + t) / 16 < n
  · exact bitAt_of_word (at_wordsOf hin)
  -- behind the words, and so behind the stream
  have hnone : stream.length ≤ mirror (p + t) := by
    rw [mirror]
    omega
  rw [bitAt, length_wordsOf, decide_eq_false (by omega), Bool.false_and, getD_eq_default _ _ hnone]

theorem layout_bits (stream : List Bool) {ps : List Piece} {used k : Nat}
    (hps : ∀ piece ∈ ps, ∃ bs, piece = .bits bs ∧ bs.length ≤ 15) (hused : used ≤ 16 * (k - 1))
    (hk : 1 ≤ k) : ∃ n, wordsOf stream k ++ layout stream used k ps = wordsOf stream n ∧
      used + (ps.flatMap Piece.stream).length ≤ 16 * n := by
  induction ps generalizing used k with
  | nil =>
    refine ⟨k, append_nil _, ?_⟩
    rw [flatMap_nil, length_nil]
    omega
  | cons piece ps ih =>
    obtain ⟨bs, rfl, hbs⟩ := hps _ mem_cons_self
    have hps' : ∀ piece ∈ ps, ∃ bs, piece = .bits bs ∧ bs.length ≤ 15 :=
      fun piece hpiece => hps piece (mem_cons_of_mem _ hpiece)
    have hstream : ((Piece.bits bs :: ps).flatMap Piece.stream).length =
        bs.length + (ps.flatMap Piece.stream).length := by
      rw [flatMap_cons, length_append]
      rfl
    rw [hstream, ← add_assoc, layout]
    split
    · obtain ⟨n, hlayout, hbits⟩ := ih hps'
        (show used + bs.length ≤ 16 * (k + 1 - 1) by omega) (succ_pos k)
      refine ⟨n, ?_, hbits⟩
      rw [← hlayout, wordsOf_succ, append_assoc]
    · exact ih hps' (by omega) hk

theorem encodeData_ne_nil (lens : List Nat) (ts : List Token) : encodeData lens ts ≠ [] :=
  cons_ne_nil _ _

theorem meets_turn_off {table : DecodeTable} {whole : List UInt8} {limit : Nat} {s : HuffState}
    (hoff : ¬ s.out <+: whole) : Meets (fun _ => True) (huffTurn table data limit s)
      (LoopStep.Ends (fun t => ¬ t.out <+: whole) (fun t => t.out ≠ whole) fun _ => False) := by
  refine (meets_huffTurn_out table data limit s).mono ?_
  rintro (t | t | r) hflow
  · exact fun hprefix => hoff (List.IsPrefix.trans hflow hprefix)
  · exact fun heq => hoff (heq ▸ hflow)
  · exact hflow

section Literals

variable {lens : List Nat} {bytes : List UInt8}

def literals (bytes : List UInt8) : List Token := bytes.map .literal

def codeTotal (lens : List Nat) (bytes : List UInt8) : Nat :=
  (bytes.map fun b => lengthOf lens b.toNat).sum

theorem length_streamOf_literals (lens : List Nat) (bytes : List UInt8) :
    (streamOf lens (literals bytes)).length = codeTotal lens bytes := by
  rw [streamOf, literals, flatMap_map, flatMap_assoc, length_flatMap]
  congr 1
  apply map_congr_left
  intro b _
  simp [pieces, Piece.stream, codeBits, symbolOf]

theorem encodeData_literals (hlens : ValidLens lens) (bytes : List UInt8) :
    ∃ n, encodeData lens (literals bytes) = wordsOf (streamOf lens (literals bytes)) n ∧
      codeTotal lens bytes ≤ 16 * n := by
  have hps : ∀ piece ∈ (literals bytes).flatMap (pieces lens),
      ∃ bs, piece = .bits bs ∧ bs.length ≤ 15 := by
    intro piece hpiece
    rw [literals, flatMap_map] at hpiece
    obtain ⟨b, -, hpiece⟩ := mem_flatMap.mp hpiece
    refine ⟨codeBits lens b.toNat, mem_singleton.mp hpiece, ?_⟩
    rw [codeBits, length_map, length_range]
    exact lengthOf_le hlens _
  obtain ⟨n, hlayout, hbits⟩ := layout_bits (streamOf lens (literals bytes)) hps
    (zero_le (16 * (2 - 1))) (by decide)
  refine ⟨n, ?_, ?_⟩
  · rw [← hlayout]
    exact (append_assoc _ _ _).symm
  · rw [zero_add] at hbits
    rw [← length_streamOf_literals]
    exact hbits

theorem expand_literals (bytes out : List UInt8) : expand (literals bytes) out = out ++ bytes := by
  induction bytes generalizing out with
  | nil => exact (append_nil out).symm
  | cons b bytes ih =>
    refine (ih (out ++ [b])).trans ?_
    rw [append_assoc]
    rfl

/-! ### Literals -/

theorem codeTotal_cons (lens : List Nat) (b : UInt8) (bytes : List UInt8) :
    codeTotal lens (b :: bytes) = lengthOf lens b.toNat + codeTotal lens bytes := by
  rw [codeTotal, map_cons, sum_cons]
  rfl

theorem le_bitsLeft_topUp {p len : Nat} {s : HuffState} (hs : Reservoir (wordsOf stream n) p s)
    (hlen : len ≤ 15) (hin : p + len ≤ 16 * n) :
    len ≤ (topUp (wordsOf stream n) 15 s).bitsLeft := by
  by_contra hshort
  have hend := topUp_short hs (by omega)
  have htop := hs.topUp 15
  obtain ⟨q, hcpos, hleft⟩ := htop.words
  have hle := htop.cpos
  rw [length_wordsOf] at hend hle
  omega

/-- The decoder has written `out` and taken `p` bits; `rest` is still to be written. -/
structure Reading (data bytes out rest : List UInt8) (p : Nat) (s : HuffState) : Prop where
  whole : out ++ rest = bytes
  out : s.out = out
  reservoir : Reservoir data p s

theorem Reading.first (data bytes : List UInt8) : Reading data bytes [] bytes 0 (first data) :=
  ⟨rfl, out_first data, reservoir_first data⟩

section Runs

variable {table : DecodeTable} {stream : List Bool} {n limit : Nat}
  (hlens : ValidLens lens) (htable : IsTable lens table) (hlen : stream.length ≤ 16 * n)
  (hsize : (wordsOf stream n).length ≤ 65536)
include hlens htable hlen hsize

theorem meets_run_of_seen (hbytes : bytes.length ≤ 65536) (hcodes : codeTotal lens bytes ≤ 16 * n)
    (hseen : Seen lens stream 0 bytes) : Meets (fun _ => False) (whileLoop .outOfFuel
        (blockOf table (wordsOf stream n) bytes.length).more
        (blockOf table (wordsOf stream n) bytes.length).turn
        ((blockOf table (wordsOf stream n) bytes.length).limit + 1) (first (wordsOf stream n)))
      (Sum.elim (fun t => t.out = bytes) fun _ => False) := by
  have hisize : (wordsOf stream n).length ≤ isizeMax := le_trans hsize (by decide)
  have hcap : 65536 < isizeMax := by decide
  have hlimit : (blockOf table (wordsOf stream n) bytes.length).limit = bytes.length :=
    min_eq_right hbytes
  let inv (s : HuffState) : Prop := ∃ out rest p, Reading (wordsOf stream n) bytes out rest p s ∧
    Seen lens stream p rest ∧ p + codeTotal lens rest ≤ 16 * n
  refine meets_whileLoop (fun s => bytes.length - s.out.length) inv
    ⟨[], bytes, 0, Reading.first _ _, hseen, by omega⟩ (by rw [hlimit]; omega) ?_ ?_
  · rintro s ⟨out, rest, p, hs, -, -⟩ hclosed
    rw [HuffBlock.more, hlimit, decide_eq_false_iff_not, hs.out] at hclosed
    have hwhole := congrArg List.length hs.whole
    rw [length_append] at hwhole
    have hrest : rest = [] := eq_nil_of_length_eq_zero (by omega)
    rw [hs.out, ← hs.whole, hrest, append_nil]
  rintro s - ⟨out, rest, p, hs, hseen', hcodes'⟩ hopen
  rw [HuffBlock.more, hlimit, decide_eq_true_iff] at hopen
  have hout := hs.out
  have hwhole := congrArg List.length hs.whole
  rw [length_append] at hwhole
  cases rest with
  | nil =>
    rw [hout] at hopen
    rw [length_nil] at hwhole
    omega
  | cons b rest =>
    rw [codeTotal_cons] at hcodes'
    have hpick : pick lens (seenAt (wordsOf stream n) p) = some b.toNat := by
      rw [seenAt_wordsOf hlen]
      exact hseen'.1
    have hcover := le_bitsLeft_topUp hs.reservoir (lengthOf_le hlens b.toNat) (by omega)
    have hpos := (mem_canonical (mem_canonical_of_pick hpick)).2.1
    refine (meets_turn_literal hisize htable hs.reservoir hpick b.toNat_lt (by omega)
      (by omega)).mono ?_
    rintro (t | t | r) hflow
    · refine ⟨⟨out ++ [b], rest, _, ⟨?_, ?_, hflow.2⟩, hseen'.2, by omega⟩, ?_⟩
      · rw [append_assoc]
        exact hs.whole
      · rw [hflow.1, hout, UInt8.ofNat_toNat]
      · rw [hflow.1, length_append, length_singleton]
        omega
    · have hempty := hflow.2
      omega
    · exact hflow

omit hlens in
theorem meets_run_of_not_seen {maxOutput : Nat} (hquiet : Quiet lens stream 0 bytes)
    (hseen : ¬ Seen lens stream 0 bytes) : Meets (fun _ => True) (whileLoop .outOfFuel
        (blockOf table (wordsOf stream n) maxOutput).more
        (blockOf table (wordsOf stream n) maxOutput).turn
        ((blockOf table (wordsOf stream n) maxOutput).limit + 1) (first (wordsOf stream n)))
      (Sum.elim (fun t => t.out ≠ bytes) fun _ => False) := by
  have hisize : (wordsOf stream n).length ≤ isizeMax := le_trans hsize (by decide)
  let reading (s : HuffState) : Prop := ∃ out b rest p,
    Reading (wordsOf stream n) bytes out (b :: rest) p s ∧
    Quiet lens stream p (b :: rest) ∧ ¬ Seen lens stream p (b :: rest)
  have hreading : ∀ out rest p s, Reading (wordsOf stream n) bytes out rest p s →
      Quiet lens stream p rest → ¬ Seen lens stream p rest → reading s := by
    intro out rest p s hs hquiet' hseen'
    cases rest with
    | nil => exact absurd trivial hseen'
    | cons b rest => exact ⟨out, b, rest, p, hs, hquiet', hseen'⟩
  have hunfinished : ∀ out b rest p s, Reading (wordsOf stream n) bytes out (b :: rest) p s →
      s.out ≠ bytes := by
    intro out b rest p s hs heq
    rw [hs.out, ← hs.whole] at heq
    exact cons_ne_nil b rest (append_right_eq_self.mp heq.symm)
  -- the decoder is still right, or it is not and will never be again
  refine meets_whileLoop_of_stuck trivial (fun s => reading s ∨ ¬ s.out <+: bytes)
    (Or.inl (hreading _ _ _ _ (Reading.first _ _) hquiet hseen)) ?_ ?_
  · rintro s (⟨out, b, rest, p, hs, -, -⟩ | hoff) -
    · exact hunfinished out b rest p s hs
    · exact fun heq => hoff (heq ▸ prefix_refl _)
  rintro s (⟨out, b, rest, p, hs, hquiet', hseen'⟩ | hoff) -
  · have hpick := seenAt_wordsOf hlen p
    cases hsym : pick lens (window stream p) with
    | none =>
      rw [← hpick] at hsym
      refine Meets.of_eq_ok (turn_of_none hisize htable hs.reservoir hsym) ?_
      exact fun heq => hunfinished out b rest p s hs (topUp_out.symm.trans heq)
    | some sym =>
      have hlit := hquiet'.1 sym hsym
      have hsym' := hpick.symm ▸ hsym
      refine (meets_turn_literal hisize htable hs.reservoir hsym' hlit (fun _ => trivial)
        (fun _ => trivial)).mono ?_
      rintro (t | t | r) hflow
      · by_cases hright : sym = b.toNat
        · refine Or.inl (hreading (out ++ [b]) rest _ t ⟨?_, ?_, hflow.2⟩ ?_ ?_)
          · rw [append_assoc]
            exact hs.whole
          · rw [hflow.1, hs.out, hright, UInt8.ofNat_toNat]
          · rw [hright]
            exact hquiet'.2
          · intro htail
            rw [hright] at hsym htail
            exact hseen' ⟨hsym, htail⟩
        · refine Or.inr fun hprefix => hright ?_
          rw [hflow.1, hs.out, ← hs.whole, prefix_append_right_inj, cons_prefix_cons] at hprefix
          rw [← hprefix.1, UInt8.toNat_ofNat', mod_eq_of_lt hlit]
      · exact fun heq => hunfinished out b rest p s hs (hflow.1.symm.trans heq)
      · exact hflow
  · refine (meets_turn_off hoff).mono ?_
    rintro (t | t | r) hflow
    · exact Or.inr hflow
    · exact hflow
    · exact hflow

end Runs

theorem quiet_of_seen {p : Nat} (hseen : Seen lens stream p bytes) : Quiet lens stream p bytes := by
  induction bytes generalizing p with
  | nil => trivial
  | cons b bytes ih =>
    refine ⟨fun sym hsym => ?_, ih hseen.2⟩
    rw [hseen.1, Option.some.injEq] at hsym
    exact hsym ▸ b.toNat_lt

theorem decompress_literals_iff {maxOutput : Nat} (hlens : ValidLens lens) (hne : bytes ≠ [])
    (hbytes : bytes.length ≤ 65536) (hsize : (encodeData lens (literals bytes)).length ≤ 65536)
    (hmax : maxOutput = bytes.length)
    (hquiet : Quiet lens (streamOf lens (literals bytes)) 0 bytes) :
    xpressHuffDecompress (encode lens (literals bytes)) maxOutput = .ok (some bytes) ↔
      Seen lens (streamOf lens (literals bytes)) 0 bytes := by
  obtain ⟨n, hdata, hcodes⟩ := encodeData_literals hlens bytes
  have hstream := length_streamOf_literals lens bytes
  have hdataNe := encodeData_ne_nil lens (literals bytes)
  have hpos := length_pos_of_ne_nil hne
  rw [encode, hmax]
  rw [hdata] at hsize hdataNe ⊢
  constructor
  · intro heq
    by_contra hseen
    have hrun := meets_decompress_block hlens hdataNe hsize hpos (fun out => out ≠ bytes)
      (fun table htable => meets_run_of_not_seen htable (by omega) hsize hquiet hseen)
    rw [heq] at hrun
    obtain ⟨out, hout, hresult⟩ := hrun
    split at hresult
    · cases hresult
    · exact hout (Option.some.inj hresult).symm
  · intro hseen
    have hrun := meets_decompress_block hlens hdataNe hsize hpos (fun out => out = bytes)
      (fun table htable => meets_run_of_seen hlens htable (by omega) hsize hbytes hcodes hseen)
    apply Meets.eq_ok
    refine hrun.mono ?_
    rintro _ ⟨out, rfl, rfl⟩
    rw [if_neg (by simpa using hne)]

end Literals

/-! ### The first symbol -/

theorem seenAt_encodeData (lens : List Nat) (ts : List Token) :
    seenAt (encodeData lens ts) 0 = window (streamOf lens ts) 0 := by
  rw [seenAt, window]
  apply map_congr_left
  intro t ht
  have ht' := mem_range.mp ht
  have hzero : (0 + t) / 16 = 0 := by omega
  refine bitAt_of_word ?_
  rw [hzero]
  exact prefix_append _ _

variable {maxOutput : Nat}

theorem meets_run_of_first {table : DecodeTable} {rest : List UInt8} {b : UInt8}
    (hlens : ValidLens lens) (htable : IsTable lens table) (hdata : data.length ≤ isizeMax)
    (hpick : pick lens (seenAt data 0) ≠ some b.toNat) :
    Meets (fun _ => True) (whileLoop .outOfFuel (blockOf table data maxOutput).more
        (blockOf table data maxOutput).turn ((blockOf table data maxOutput).limit + 1) (first data))
      (Sum.elim (fun t => t.out ≠ b :: rest) fun _ => False) := by
  refine meets_whileLoop_of_stuck trivial
    (fun s => (s.out = [] ∧ Reservoir data 0 s) ∨ ¬ s.out <+: b :: rest)
    (Or.inl ⟨out_first data, reservoir_first data⟩) ?_ ?_
  · rintro s (⟨hout, -⟩ | hoff) -
    · rw [hout]
      exact (cons_ne_nil b rest).symm
    · exact fun heq => hoff (heq ▸ prefix_refl _)
  rintro s (⟨hout, hs⟩ | hoff) -
  · cases hsym : pick lens (seenAt data 0) with
    | none =>
      refine Meets.of_eq_ok (turn_of_none hdata htable hs hsym) ?_
      show (topUp data 15 s).out ≠ b :: rest
      rw [topUp_out, hout]
      exact (cons_ne_nil b rest).symm
    | some sym =>
      by_cases hlit : sym < 256
      · refine (meets_turn_literal hdata htable hs hsym hlit (fun _ => trivial)
          (fun _ => trivial)).mono ?_
        rintro (t | t | r) hflow
        · refine Or.inr fun hprefix => hpick ?_
          rw [hflow.1, hout, nil_append, cons_prefix_cons] at hprefix
          rw [hsym, ← hprefix.1, UInt8.toNat_ofNat', mod_eq_of_lt hlit]
        · show t.out ≠ b :: rest
          rw [hflow.1, hout]
          exact (cons_ne_nil b rest).symm
        · exact hflow
      · refine (meets_turn_match hdata htable (le_of_eq hlens.size) hs hsym hlit
          hout).mono ?_
        rintro (t | t | r) hflow
        · exact hflow.elim
        · show t.out ≠ b :: rest
          rw [show t.out = [] from hflow]
          exact (cons_ne_nil b rest).symm
        · exact hflow
  · refine (meets_turn_off hoff).mono ?_
    rintro (t | t | r) hflow
    · exact Or.inr hflow
    · exact hflow
    · exact hflow

theorem not_decompress_of_first {t : Token} {ts : List Token} (hlens : ValidLens lens)
    (hfits : TokenFits lens 0 t) (hsize : (encodeData lens (t :: ts)).length ≤ 65536)
    (hmax : 0 < maxOutput)
    (hpick : pick lens (window (streamOf lens (t :: ts)) 0) ≠ some (symbolOf t)) :
    xpressHuffDecompress (encode lens (t :: ts)) maxOutput ≠ .ok (some (expand (t :: ts) [])) := by
  cases t with
  | copy disp len =>
    have hdisp := hfits.2.1
    omega
  | literal b =>
    obtain ⟨rest, hrest⟩ := Xpress.prefix_expand ts [b]
    have hwhole : expand (.literal b :: ts) [] = b :: rest := hrest.symm
    have hrun := meets_decompress_block hlens (encodeData_ne_nil lens (.literal b :: ts)) hsize
      hmax (fun out => out ≠ b :: rest)
      (fun table htable => meets_run_of_first hlens htable (le_trans hsize (by decide))
        (by rw [seenAt_encodeData]; exact hpick))
    intro heq
    rw [encode, hwhole] at heq
    rw [heq] at hrun
    obtain ⟨out, hout, hresult⟩ := hrun
    split at hresult
    · cases hresult
    · exact hout (Option.some.inj hresult).symm

/-- Of a text without matches that is as long as the output may be, the decoder gives the text
exactly if it takes every symbol, provided it takes no match for one; and of no sequence whose first
symbol it does not take. -/
theorem xpressHuffDecompress_encode_iff (lens : List Nat) (ts : List Token) (maxOutput : Nat)
    (hlens : ValidLens lens) (hfits : EachAt (TokenFits lens) 0 ts)
    (hsize : (encodeData lens ts).length ≤ 65536) (hmax : (expand ts []).length ≤ maxOutput) :
    (∀ bytes, ts = literals bytes → bytes ≠ [] → bytes.length ≤ 65536 →
      maxOutput = bytes.length → Quiet lens (streamOf lens ts) 0 bytes →
      (xpressHuffDecompress (encode lens ts) maxOutput = .ok (some (expand ts [])) ↔
        Seen lens (streamOf lens ts) 0 bytes)) ∧
    (∀ t rest, ts = t :: rest → pick lens (window (streamOf lens ts) 0) ≠ some (symbolOf t) →
      xpressHuffDecompress (encode lens ts) maxOutput ≠ .ok (some (expand ts []))) := by
  constructor
  · rintro bytes rfl hne hbytes hexact hquiet
    rw [expand_literals, nil_append]
    exact decompress_literals_iff hlens hne hbytes hsize hexact hquiet
  rintro t rest rfl hpick
  refine not_decompress_of_first hlens hfits.1 hsize ?_ hpick
  have hgrow := (Xpress.prefix_expand rest (t.expand [])).length_le
  rw [← expand_cons] at hgrow
  cases t with
  | copy disp len =>
    have hdisp := hfits.1.2.1
    omega
  | literal b => exact Nat.lt_of_lt_of_le Nat.one_pos (Nat.le_trans hgrow hmax)

def twoCodes : List Nat := List.replicate 65 0 ++ [1, 1] ++ List.replicate 445 0

theorem validLens_twoCodes : ValidLens twoCodes :=
  ⟨by decide +kernel, by decide +kernel, by decide +kernel⟩

theorem seen_twoCodes : Seen twoCodes (streamOf twoCodes (literals [0x41, 0x41, 0x41])) 0
    [0x41, 0x41, 0x41] := by
  refine ⟨?_, ?_, ?_, trivial⟩ <;> decide +kernel

theorem xpressHuffDecompress_twoCodes :
    xpressHuffDecompress (encode twoCodes (literals [0x41, 0x41, 0x41])) 3 =
      .ok (some (expand (literals [0x41, 0x41, 0x41]) [])) :=
  ((xpressHuffDecompress_encode_iff twoCodes (literals [0x41, 0x41, 0x41]) 3 validLens_twoCodes
    (by decide +kernel) (by decide +kernel) (by decide +kernel)).1 [0x41, 0x41, 0x41] rfl
    (cons_ne_nil _ _) (by decide) rfl (quiet_of_seen seen_twoCodes)).mpr seen_twoCodes

def nineBits : List Nat := List.replicate 512 9

theorem validLens_nineBits : ValidLens nineBits :=
  ⟨by decide +kernel, by decide +kernel, by decide +kernel⟩

/-- The byte 1 has the code 000000001. The decoder reads the bits of the word 0000000010000000 from
the other end and takes the code at the end of the first fifteen of them. -/
theorem nineBits_loses_one : ValidLens nineBits ∧ EachAt (TokenFits nineBits) 0 [.literal 1] ∧
    xpressHuffDecompress (encode nineBits [.literal 1]) 1 ≠
      .ok (some (expand [.literal 1] [])) := by
  have hfits : EachAt (TokenFits nineBits) 0 [.literal 1] := by decide +kernel
  refine ⟨validLens_nineBits, hfits, ?_⟩
  refine not_decompress_of_first validLens_nineBits hfits.1 (by decide +kernel) Nat.one_pos ?_
  intro hpick
  have hsuffix := (mem_filter.mp (mem_of_getLast? hpick)).2
  revert hsuffix
  decide +kernel

/-! ### All three decompressors -/

/-- Without a whole table there is no block to decode. -/
theorem xpressHuffDecompress_short {input : List UInt8} (hshort : input.length < 256)
    (maxOutput : Nat) : xpressHuffDecompress input maxOutput = .ok none := by
  have hblock : huffBlock input maxOutput huffStart = .ok none := by
    have hend : addW 64 huffStart.pos 256 = .ok 256 := by
      rw [addW, if_pos (by decide), huffStart]
    rw [huffBlock, hend]
    exact if_pos hshort
  have hpass : huffDecodeBlock input maxOutput huffStart = .ok (.leave huffStart) := by
    rw [huffDecodeBlock, hblock]
    rfl
  rw [xpressHuffDecompress]
  by_cases hmore : huffMore input maxOutput huffStart = true
  · rw [whileLoop_leave hmore hpass]
    rfl
  · rw [whileLoop, if_neg hmore]
    rfl

/-- No block, or one block with the codes of the bytes asked for, each of which is the code that
the table gives for its window. -/
def HuffInput (input : List UInt8) (maxOutput : Nat) : Prop :=
  input.length < 256 ∨ ∃ lens bytes, ValidLens lens ∧
    input = encode lens (literals bytes) ∧ bytes ≠ [] ∧ bytes.length ≤ 65536 ∧
    (encodeData lens (literals bytes)).length ≤ 65536 ∧ maxOutput = bytes.length ∧
    Seen lens (streamOf lens (literals bytes)) 0 bytes

def threeCodes : Slice :=
  ⟨encode twoCodes (literals [0x41, 0x41, 0x41]), by decide +kernel⟩

/-- A table with one code, 15 bits long, before a block of one word: the first turn takes 15 of the
16 bits, and the second turn needs 15 again. -/
def truncatedBlock : List UInt8 := 0x0F :: List.replicate 257 0

end Huff

end Mwemu.Decompress
