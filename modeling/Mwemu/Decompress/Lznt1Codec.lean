import Mwemu.Decompress.Lznt1
import Mwemu.Lib.Lz77
import Mwemu.Lib.Segment
import Mathlib.Data.Nat.Bitwise

/-!
# LZNT1 decompresses its encoding

The format: a buffer is a sequence of chunks, each behind a header with the size of its data. A
chunk is stored, or a sequence of tokens in groups of eight, each group behind a byte that tells
literals from copies. A copy is a tag of sixteen bits; how many of them are the length depends on
the bytes that the chunk has produced so far.

The three loops of the decoder are followed with one invariant each: what stands in the input from
the cursor on is the encoding of the rest, and the output so far expands to the whole with the rest.
-/

namespace Mwemu.Decompress

open Mwemu.Lib Mwemu.Lib.Lz77 List Nat

namespace Lznt1

/-! ### The format -/

abbrev Token := Lz77.Token UInt8

def u16Bytes (value : Nat) : List UInt8 :=
  [UInt8.ofNat (value % 256), UInt8.ofNat (value / 256)]

/-- A tag has sixteen bits. Those of the displacement, from four to twelve, are as many as the
greatest displacement less one needs where the chunk has produced `cur` bytes; the length has the
rest. -/
def lengthBits (cur : Nat) : Nat :=
  16 - min 12 (max 4 ((cur - 1).log2 + 1))

/-- A token fits where the chunk has produced `cur` bytes. -/
def TokenFits (cur : Nat) : Token → Prop
  | .literal _ => True
  | .copy disp len =>
    (1 ≤ disp ∧ disp ≤ cur) ∧ disp - 1 < 2 ^ (16 - lengthBits cur) ∧
      3 ≤ len ∧ len - 3 < 2 ^ lengthBits cur

instance (cur : Nat) (t : Token) : Decidable (TokenFits cur t) := by
  cases t <;> unfold TokenFits <;> infer_instance

def TokensFit : Nat → List Token → Prop
  | _, [] => True
  | cur, t :: ts => TokenFits cur t ∧ TokensFit (cur + t.size) ts

instance decidableTokensFit : (cur : Nat) → (ts : List Token) → Decidable (TokensFit cur ts)
  | _, [] => isTrue trivial
  | cur, t :: ts =>
    have := decidableTokensFit (cur + t.size) ts
    inferInstanceAs (Decidable (TokenFits cur t ∧ TokensFit (cur + t.size) ts))

def tagOf (cur disp len : Nat) : Nat :=
  (disp - 1) * 2 ^ lengthBits cur + (len - 3)

def tokenBytes (cur : Nat) : Token → List UInt8
  | .literal b => [b]
  | .copy disp len => u16Bytes (tagOf cur disp len)

def flagBits : Nat → List Token → Nat
  | 0, _ => 0
  | _, [] => 0
  | n + 1, t :: ts => t.isCopy.toNat + 2 * flagBits n ts

/-- The tokens of a chunk that has produced `cur` bytes, with `left` places left in the group. -/
def encodeTokens : Nat → Nat → List Token → List UInt8
  | _, _, [] => []
  | cur, 0, t :: ts =>
    UInt8.ofNat (flagBits 8 (t :: ts)) ::
      (tokenBytes cur t ++ encodeTokens (cur + t.size) 7 ts)
  | cur, left + 1, t :: ts => tokenBytes cur t ++ encodeTokens (cur + t.size) left ts

def compressedData (tokens : List Token) : List UInt8 :=
  if tokens = [] then [0] else encodeTokens 0 0 tokens

inductive Chunk where
  | stored (bytes : List UInt8)
  | compressed (tokens : List Token)
  deriving DecidableEq, Repr

namespace Chunk

def data : Chunk → List UInt8
  | stored bytes => bytes
  | compressed tokens => compressedData tokens

def header : Chunk → Nat
  | stored bytes => 0x3000 + (bytes.length - 1)
  | compressed tokens => 0xB000 + ((compressedData tokens).length - 1)

def encode (c : Chunk) : List UInt8 :=
  u16Bytes c.header ++ c.data

def expand : Chunk → List UInt8
  | stored bytes => bytes
  | compressed tokens => Lz77.expand tokens []

/-- The size field of the header has twelve bits, so it holds data of up to 4096 bytes. -/
def Valid : Chunk → Prop
  | stored bytes => 1 ≤ bytes.length ∧ bytes.length ≤ 4096
  | compressed tokens => TokensFit 0 tokens ∧ (Lz77.expand tokens []).length ≤ 4096 ∧
      (compressedData tokens).length ≤ 4096

instance (c : Chunk) : Decidable c.Valid := by
  cases c <;> unfold Valid <;> infer_instance

end Chunk

/-- The mark at the end of a buffer. A buffer without chunks consists of it. -/
def markOf (chunks : List Chunk) (marked : Bool) : List UInt8 :=
  if marked = true ∨ chunks = [] then [0, 0] else []

def encode (chunks : List Chunk) (marked : Bool) : List UInt8 :=
  chunks.flatMap Chunk.encode ++ markOf chunks marked

def expandAll (chunks : List Chunk) : List UInt8 :=
  chunks.flatMap Chunk.expand

/-! ### Reading -/

section Reading

variable {allowed : Fault → Prop} {input rest : List UInt8} {pos : Nat}

theorem meets_ok {α : Type} {a : α} : Meets allowed (.ok a) (· = a) :=
  rfl

theorem getElem?_at {b : UInt8} (hat : At input pos (b :: rest)) : input[pos]? = some b := by
  obtain ⟨tail, htail⟩ := hat
  have hdrop : (input.drop pos)[0]? = some b := by rw [← htail]; rfl
  rwa [List.getElem?_drop, add_zero] at hdrop

theorem meets_getByte_at {b : UInt8} (hat : At input pos (b :: rest)) :
    Meets allowed (getByte input pos) (· = b) := by
  rw [getByte, getElem?_at hat]
  exact Meets.of_eq_ok rfl rfl

theorem meets_readU16Le_at {value : Nat} (hvalue : value < 2 ^ 16)
    (hat : At input pos (u16Bytes value)) : Meets allowed (readU16Le input pos) (· = value) := by
  have htail : At input (pos + 1) [UInt8.ofNat (value / 256)] :=
    At.tail (a := [UInt8.ofNat (value % 256)]) hat
  refine (meets_getByte_at hat).next ?_
  refine (meets_getByte_at htail).next ?_
  refine Meets.pure ?_
  rw [UInt8.toNat_ofNat', UInt8.toNat_ofNat']
  omega

end Reading

theorem meets_copyMatch_from {allowed : Fault → Prop} {maxOutput offset length : Nat}
    {ahead : Nat → Nat} {out : List UInt8} (hahead : ∀ i, ahead i < offset)
    (hle : offset ≤ out.length) (hroom : out.length + length ≤ maxOutput)
    (hcap : out.length + length ≤ isizeMax) :
    Meets allowed (copyMatch maxOutput offset ahead length out)
      (· = copyFrom offset ahead length out) := by
  have hisize : isizeMax < 2 ^ 63 := by decide
  rw [copyMatch]
  refine Meets.seq (Sum.elim (· = copyFrom offset ahead length out) fun _ => False) ?_ ?_
  · refine meets_forRange (fun i out' => out' = copyFrom offset ahead i out) rfl
      (fun out' hout' => by rwa [zero_add] at hout') ?_
    rintro i _ - hi rfl
    have hlen := length_copyFrom hahead hle i
    have hstep := hahead i
    obtain ⟨b, hb, hsucc⟩ := copyFrom_succ hahead hle i
    rw [if_neg (by omega)]
    refine (meets_subW (by omega)).next ?_
    refine (meets_addW (by omega)).next ?_
    rw [getOut, hlen, hb]
    refine meets_ok.next ?_
    rw [push, if_pos (by omega)]
    exact hsucc.symm
  · intro result hresult
    cases result with
    | inl out' => exact Meets.pure hresult
    | inr e => exact e.elim

theorem meets_copyMatch_back {allowed : Fault → Prop} {maxOutput offset length : Nat}
    {out : List UInt8} (hoffset : 1 ≤ offset) (hle : offset ≤ out.length)
    (hroom : out.length + length ≤ maxOutput) (hcap : out.length + length ≤ isizeMax) :
    Meets allowed (copyMatch maxOutput offset (fun _ => 0) length out)
      (· = copyBack offset length out) := by
  rw [← copyFrom_zero]
  exact meets_copyMatch_from (fun _ => hoffset) hle hroom hcap

/-! ### A token -/

variable {cur disp len : Nat}

theorem lznt1Shift_eq (cur : Nat) : lznt1Shift cur = lengthBits cur := by
  have hlog (k : Nat) (hk : 0 < k) : (cur - 1).log2 < k ↔ cur ≤ 2 ^ k := by
    by_cases hzero : cur - 1 = 0
    · have hpow := Nat.one_lt_two_pow (Nat.ne_of_gt hk)
      rw [hzero, Nat.log2_zero]
      omega
    · rw [Nat.log2_lt hzero]
      omega
  have h4 := hlog 4 (by decide)
  have h5 := hlog 5 (by decide)
  have h6 := hlog 6 (by decide)
  have h7 := hlog 7 (by decide)
  have h8 := hlog 8 (by decide)
  have h9 := hlog 9 (by decide)
  have h10 := hlog 10 (by decide)
  have h11 := hlog 11 (by decide)
  unfold lznt1Shift lengthBits
  repeat' split
  all_goals omega

theorem tag_lt (hdisp : disp - 1 < 2 ^ (16 - lengthBits cur))
    (hlen : len - 3 < 2 ^ lengthBits cur) : tagOf cur disp len < 2 ^ 16 := by
  have hhigh := lznt1Shift_eq cur ▸ (lznt1Shift_bounds cur).2
  have hpow : 2 ^ (16 - lengthBits cur) * 2 ^ lengthBits cur = 2 ^ 16 := by
    rw [← Nat.pow_add, Nat.sub_add_cancel (by omega)]
  have hmul := mul_le_mul_right (2 ^ lengthBits cur) (succ_le_of_lt hdisp)
  rw [succ_mul] at hmul
  rw [tagOf]
  omega

theorem tag_length (hlen : len - 3 < 2 ^ lengthBits cur) :
    tagOf cur disp len &&& (1 <<< lznt1Shift cur - 1) = len - 3 := by
  rw [lznt1Shift_eq, one_shiftLeft, and_two_pow_sub_one_eq_mod, tagOf, add_comm,
    add_mul_mod_self_right, mod_eq_of_lt hlen]

theorem tag_offset (hlen : len - 3 < 2 ^ lengthBits cur) :
    tagOf cur disp len >>> lznt1Shift cur = disp - 1 := by
  rw [lznt1Shift_eq, Nat.shiftRight_eq_div_pow, tagOf, Nat.add_comm, Nat.add_mul_div_right _ _ (Nat.two_pow_pos _),
    Nat.div_eq_of_lt hlen, Nat.zero_add]

variable {t : Token}

theorem TokenFits.within (hfits : TokenFits cur t) : t.Within cur := by
  cases t with
  | literal b => trivial
  | copy disp len => exact hfits.1

section Decoding

variable {input before : List UInt8} {maxOutput chunkEnd : Nat}

variable {o : List UInt8} {s : Cursor}

theorem meets_token {flags bit : Nat} (hinput : input.length ≤ isizeMax)
    (hend : chunkEnd ≤ input.length) (hat : At input s.pos (tokenBytes o.length t))
    (hstop : s.pos + (tokenBytes o.length t).length ≤ chunkEnd) (hout : s.out = before ++ o)
    (hfits : TokenFits o.length t) (hflag : (flags >>> bit) &&& 1 = t.isCopy.toNat)
    (hroom : s.out.length + t.size ≤ maxOutput) (hcap : s.out.length + t.size ≤ isizeMax) :
    Meets (fun _ => False) (lznt1Token input maxOutput chunkEnd before.length flags bit s)
      (· = .next
        { pos := s.pos + (tokenBytes o.length t).length, out := before ++ t.expand o }) := by
  have hisize : isizeMax < 2 ^ 63 := by decide
  have houtlen : s.out.length = before.length + o.length := by rw [hout, length_append]
  rw [lznt1Token, hflag]
  cases t with
  | literal b =>
    rw [tokenBytes, length_singleton] at hstop
    rw [Lz77.Token.size] at hroom hcap
    rw [if_neg (by omega), if_pos (show (Lz77.Token.literal b).isCopy.toNat = 0 from rfl)]
    refine (meets_getByte_at hat).next ?_
    rw [push, if_pos (by omega)]
    refine meets_ok.next ?_
    refine (meets_addW (by omega)).next ?_
    refine Meets.pure ?_
    rw [hout, append_assoc]
    rfl
  | copy disp len =>
    obtain ⟨⟨hdisp, hcur⟩, hdisp', hlen, hlen'⟩ := hfits
    have hbytes : (tokenBytes o.length (.copy disp len)).length = 2 := rfl
    rw [hbytes] at hstop ⊢
    rw [Lz77.Token.size] at hroom hcap
    rw [if_neg (by omega),
      if_neg (show ¬ (Lz77.Token.copy disp len : Token).isCopy.toNat = 0 from one_ne_zero)]
    refine (meets_addW (by omega)).next ?_
    rw [if_neg (by omega)]
    refine (meets_readU16Le_at (tag_lt hdisp' hlen') hat).next ?_
    refine (meets_addW (by omega)).next ?_
    refine (meets_subW (by omega)).next ?_
    rw [show s.out.length - before.length = o.length by omega]
    obtain ⟨hmask, hlen12, hoff12⟩ := lznt1_tag_fields (tag_lt hdisp' hlen') o.length
    refine (meets_subW hmask).next ?_
    rw [tag_length hlen', tag_offset hlen']
    rw [tag_length hlen'] at hlen12
    rw [tag_offset hlen'] at hoff12
    refine (meets_addW (by omega)).next ?_
    refine (meets_addW (by omega)).next ?_
    refine (meets_subW (by omega)).next ?_
    rw [show len - 3 + 3 = len by omega, show disp - 1 + 1 = disp by omega, if_neg (by omega)]
    refine (meets_copyMatch_back hdisp (by omega) hroom hcap).next ?_
    refine Meets.pure ?_
    rw [hout, copyBack_append_left before hdisp hcur]
    rfl

/-! ### A group -/

theorem flagBits_lt (n : Nat) (ts : List Token) : flagBits n ts < 2 ^ n := by
  induction n generalizing ts with
  | zero => cases ts <;> exact Nat.one_pos
  | succ n ih =>
    cases ts with
    | nil => exact Nat.two_pow_pos _
    | cons t ts =>
      have hbit := Bool.toNat_le t.isCopy
      have hrec := ih ts
      rw [flagBits, pow_succ]
      omega

variable {ts : List Token}

theorem flagBits_bit {n j : Nat} (hj : j < n) (ht : ts[j]? = some t) :
    (flagBits n ts >>> j) &&& 1 = t.isCopy.toNat := by
  induction n generalizing j ts with
  | zero => omega
  | succ n ih =>
    cases ts with
    | nil => simp at ht
    | cons u ts =>
      have hbit := Bool.toNat_le u.isCopy
      rw [flagBits]
      cases j with
      | zero =>
        obtain rfl : u = t := by simpa using ht
        rw [shiftRight_zero, and_one_is_mod]
        omega
      | succ j =>
        have hrec := ih (lt_of_succ_lt_succ hj) (by simpa using ht)
        rw [shiftRight_succ_inside, show (u.isCopy.toNat + 2 * flagBits n ts) / 2 =
          flagBits n ts by omega]
        exact hrec

theorem TokenFits.size_pos (hfits : TokenFits cur t) : 1 ≤ t.size := by
  cases t with
  | literal b => exact le_refl 1
  | copy disp len => exact le_trans (by decide) hfits.2.2.1

theorem length_le_expand (hfits : TokensFit o.length ts) : o.length ≤ (expand ts o).length := by
  induction ts generalizing o with
  | nil => exact le_refl _
  | cons t ts ih =>
    have hlen := Lz77.Token.length_expand hfits.1.within
    have hrec := ih (hlen ▸ hfits.2)
    rw [expand_cons]
    omega

/-- The decoder stands in a chunk: behind the cursor are the rest of its tokens, with `left` of them
in the current group, up to the end of the chunk; the output is that of the chunks before and `o` of
this one, and with its rest the chunk produces `full`. -/
structure Standing (input before full : List UInt8) (chunkEnd left : Nat) (ts : List Token)
    (o : List UInt8) (s : Cursor) : Prop where
  bytes : At input s.pos (encodeTokens o.length left ts)
  stop : s.pos + (encodeTokens o.length left ts).length = chunkEnd
  out : s.out = before ++ o
  fits : TokensFit o.length ts
  whole : expand ts o = full

structure Room (input before full : List UInt8) (maxOutput chunkEnd : Nat) : Prop where
  slice : input.length ≤ isizeMax
  stop : chunkEnd ≤ input.length
  output : before.length + full.length ≤ maxOutput
  capacity : before.length + full.length ≤ isizeMax

variable {full : List UInt8}

theorem Standing.token {left : Nat} {flags bit : Nat}
    (hroom : Room input before full maxOutput chunkEnd)
    (hs : Standing input before full chunkEnd (left + 1) (t :: ts) o s)
    (hflag : (flags >>> bit) &&& 1 = t.isCopy.toNat) :
    Meets (fun _ => False) (lznt1Token input maxOutput chunkEnd before.length flags bit s)
      (LoopStep.Ends
        (fun s' => Standing input before full chunkEnd left ts (t.expand o) s' ∧ s.pos ≤ s'.pos)
        (fun _ => False) fun _ => False) := by
  obtain ⟨hbytes, hstop, hout, hfits, hwhole⟩ := hs
  have hlen := Lz77.Token.length_expand hfits.1.within
  have hgrow := length_le_expand (o := t.expand o) (hlen ▸ hfits.2)
  rw [← expand_cons, hwhole] at hgrow
  have houtlen : s.out.length = before.length + o.length := by rw [hout, length_append]
  rw [encodeTokens] at hbytes hstop
  rw [length_append] at hstop
  have houtput := hroom.output
  have hcapacity := hroom.capacity
  refine (meets_token hroom.slice hroom.stop hbytes.head (by omega) hout hfits.1 hflag (by omega)
    (by omega)).mono ?_
  rintro _ rfl
  refine ⟨⟨?_, ?_, rfl, hlen ▸ hfits.2, hwhole⟩, le_add_right _ _⟩
  · rw [hlen]
    exact hbytes.tail
  · rw [hlen]
    simp only
    omega

theorem Standing.eq_nil {left : Nat} (hs : Standing input before full chunkEnd left ts o s)
    (hend : chunkEnd ≤ s.pos) : ts = [] := by
  have hstop := hs.stop
  have hempty : encodeTokens o.length left ts = [] := eq_nil_of_length_eq_zero (by omega)
  cases ts with
  | nil => rfl
  | cons t ts =>
    cases left with
    | zero => exact absurd hempty (by rw [encodeTokens]; exact cons_ne_nil _ _)
    | succ left =>
      rw [encodeTokens, append_eq_nil_iff] at hempty
      cases t <;> exact absurd hempty.1 (cons_ne_nil _ _)

theorem Standing.group (hroom : Room input before full maxOutput chunkEnd)
    (hs : Standing input before full chunkEnd 0 ts o s) (hopen : s.pos < chunkEnd) :
    Meets (fun _ => False) (lznt1Group input maxOutput chunkEnd before.length s) (LoopStep.Ends
        (fun s' => (∃ ts o, Standing input before full chunkEnd 0 ts o s') ∧
          input.length - s'.pos < input.length - s.pos) (fun _ => False) fun _ => False) := by
  have hisize : isizeMax < 2 ^ 63 := by decide
  have hstop := hroom.stop
  have hinput := hroom.slice
  cases ts with
  | nil =>
    have heq := hs.stop
    rw [encodeTokens, length_nil] at heq
    omega
  | cons t ts =>
    obtain ⟨hbytes, hend, hout, hfits, hwhole⟩ := hs
    have hsplit : encodeTokens o.length 0 (t :: ts) =
        UInt8.ofNat (flagBits 8 (t :: ts)) :: encodeTokens o.length 8 (t :: ts) := rfl
    rw [hsplit] at hbytes hend
    rw [length_cons] at hend
    rw [lznt1Group, if_neg (by omega)]
    refine (meets_getByte_at hbytes).next ?_
    refine (meets_addW (by omega)).next ?_
    have hflags : (UInt8.ofNat (flagBits 8 (t :: ts))).toNat = flagBits 8 (t :: ts) := by
      rw [UInt8.toNat_ofNat', mod_eq_of_lt (flagBits_lt 8 _)]
    rw [hflags]
    -- after `i` tokens of the group, the flags of the rest start at bit `i`
    let inv (i : Nat) (s' : Cursor) : Prop :=
      ∃ ts' o', Standing input before full chunkEnd (8 - i) ts' o' s' ∧ s.pos < s'.pos ∧
        ∀ j u, ts'[j]? = some u → i + j < 8 →
          (flagBits 8 (t :: ts) >>> (i + j)) &&& 1 = u.isCopy.toNat
    let post (s' : Cursor) : Prop :=
      (∃ ts' o', Standing input before full chunkEnd 0 ts' o' s') ∧ s.pos < s'.pos
    refine Meets.seq (Sum.elim post fun _ => False) ?_ ?_
    · refine meets_forRange inv ?_ ?_ ?_
      · refine ⟨t :: ts, o, ⟨?_, ?_, hout, hfits, hwhole⟩, lt_succ_self _, ?_⟩
        · exact At.tail (a := [_]) hbytes
        · show s.pos + 1 + (encodeTokens o.length 8 (t :: ts)).length = chunkEnd
          omega
        · intro j u hu hj
          rw [zero_add] at hj ⊢
          exact flagBits_bit hj hu
      · rintro s' ⟨ts', o', hs', hpos, -⟩
        exact ⟨⟨ts', o', hs'⟩, hpos⟩
      · rintro i s' - hi ⟨ts', o', hs', hpos, hbits⟩
        cases ts' with
        | nil =>
          have hpos' := hs'.stop
          rw [encodeTokens, length_nil] at hpos'
          rw [lznt1Token, if_pos (by omega)]
          exact Meets.pure ⟨⟨[], o', ⟨List.nil_prefix, hpos', hs'.out, hs'.fits, hs'.whole⟩⟩, hpos⟩
        | cons u ts' =>
          have hleft : 8 - i = 8 - (i + 1) + 1 := by omega
          rw [hleft] at hs'
          refine (hs'.token hroom (hbits 0 u rfl (by omega))).mono ?_
          rintro (s'' | s'' | r) hflow
          · refine ⟨ts', _, hflow.1, lt_of_lt_of_le hpos hflow.2, fun j v hv hj => ?_⟩
            rw [show i + 1 + j = i + (j + 1) by omega]
            exact hbits (j + 1) v hv (by omega)
          · exact hflow.elim
          · exact hflow
    · rintro (s' | r) hresult
      · exact Meets.pure ⟨hresult.1, by have := hresult.2; omega⟩
      · exact hresult.elim

/-! ### A chunk -/

def groups (input : List UInt8) (maxOutput chunkEnd chunkStartOut : Nat) (s : Cursor) :
    Except Fault (Cursor ⊕ Option (List UInt8)) :=
  whileLoop .outOfFuel
    (fun t => decide (t.pos < chunkEnd) && decide (t.out.length < maxOutput))
    (lznt1Group input maxOutput chunkEnd chunkStartOut) (input.length + 1) s

theorem Standing.groups (hroom : Room input before full maxOutput chunkEnd)
    (hs : Standing input before full chunkEnd 0 ts o s) :
    Meets (fun _ => False) (groups input maxOutput chunkEnd before.length s)
      (Sum.elim (fun t => t.out = before ++ full) fun _ => False) := by
  refine meets_whileLoop (fun t => input.length - t.pos)
    (fun t => ∃ ts o, Standing input before full chunkEnd 0 ts o t) ⟨ts, o, hs⟩ (by omega) ?_ ?_
  · -- out of room or at the end of the chunk, no token is left
    rintro t ⟨ts', o', ht⟩ hclosed
    have hnil : ts' = [] := by
      by_cases hend : chunkEnd ≤ t.pos
      · exact ht.eq_nil hend
      cases ts' with
      | nil => rfl
      | cons u ts' =>
        have hlen := Lz77.Token.length_expand ht.fits.1.within
        have hgrow := length_le_expand (o := u.expand o') (hlen ▸ ht.fits.2)
        rw [← expand_cons, ht.whole] at hgrow
        have hsize := ht.fits.1.size_pos
        have houtlen := congrArg List.length ht.out
        rw [length_append] at houtlen
        have houtput := hroom.output
        simp only [Bool.and_eq_false_iff, decide_eq_false_iff_not] at hclosed
        omega
    have hwhole := ht.whole
    rw [hnil] at hwhole
    rw [ht.out, ← hwhole]
    rfl
  · rintro t - ⟨ts', o', ht⟩ hopen
    rw [Bool.and_eq_true, decide_eq_true_iff] at hopen
    refine (ht.group hroom hopen.1).mono ?_
    rintro (u | u | r) hflow
    · exact hflow
    · exact hflow.elim
    · exact hflow

theorem meets_groups_nil (hat : At input s.pos [0]) (hend : s.pos + 1 = chunkEnd)
    (hstop : chunkEnd ≤ input.length) (hinput : input.length ≤ isizeMax) :
    Meets (fun _ => False) (groups input maxOutput chunkEnd s.out.length s)
      (Sum.elim (fun t => t.out = s.out) fun _ => False) := by
  have hisize : isizeMax < 2 ^ 63 := by decide
  refine meets_whileLoop (fun t => input.length - t.pos)
    (fun t => t.out = s.out ∧ (t = s ∨ t.pos = chunkEnd)) ⟨rfl, Or.inl rfl⟩ (by omega)
    (fun t ht _ => ht.1) ?_
  rintro t - ⟨hout, hpos⟩ hopen
  rw [Bool.and_eq_true, decide_eq_true_iff] at hopen
  obtain rfl : t = s := hpos.resolve_right (by omega)
  rw [lznt1Group, if_neg (by omega)]
  refine (meets_getByte_at hat).next ?_
  refine (meets_addW (by omega)).next ?_
  refine (Meets.of_eq_ok (forRange_leave (if_pos (Or.inl (le_of_eq hend.symm)))) rfl :
    Meets _ _ (· = .inl { t with pos := t.pos + 1 })).next ?_
  exact ⟨⟨rfl, Or.inr hend⟩, by simp only; omega⟩

theorem header_length {k : Nat} (hk : k < 4096) :
    (0x3000 + k) &&& 0x0FFF = k ∧ (0xB000 + k) &&& 0x0FFF = k := by
  rw [show 0x0FFF = 2 ^ 12 - 1 from rfl, and_two_pow_sub_one_eq_mod,
    and_two_pow_sub_one_eq_mod]
  omega

theorem header_compressed {k : Nat} (hk : k < 4096) :
    (0x3000 + k) &&& 0x8000 = 0 ∧ (0xB000 + k) &&& 0x8000 ≠ 0 := by
  rw [Nat.and_comm, Nat.and_comm (0xB000 + k), show 0x8000 = 2 ^ 15 from rfl, Nat.two_pow_and,
    Nat.two_pow_and, Nat.testBit_eq_decide_div_mod_eq, Nat.testBit_eq_decide_div_mod_eq,
    decide_eq_false (show ¬ (0x3000 + k) / 2 ^ 15 % 2 = 1 by omega),
    decide_eq_true (show (0xB000 + k) / 2 ^ 15 % 2 = 1 by omega)]
  decide

theorem length_compressedData_pos (tokens : List Token) : 1 ≤ (compressedData tokens).length := by
  unfold compressedData
  cases tokens with
  | nil => exact le_refl 1
  | cons t ts =>
    rw [if_neg (cons_ne_nil t ts), encodeTokens, length_cons]
    exact le_add_left 1 _

theorem meets_compressed {tokens : List Token} (hinput : input.length ≤ isizeMax)
    (hat : At input (s.pos + 2) (compressedData tokens))
    (hstop : s.pos + (2 + (compressedData tokens).length) ≤ input.length)
    (hfits : TokensFit 0 tokens) (houtput : s.out.length + (expand tokens []).length ≤ maxOutput)
    (hcapacity : s.out.length + (expand tokens []).length ≤ isizeMax) : Meets (fun _ => False)
      (groups input maxOutput (s.pos + (2 + (compressedData tokens).length)) s.out.length
        { s with pos := s.pos + 2 })
      (Sum.elim (fun t => t.out = s.out ++ expand tokens []) fun _ => False) := by
  by_cases hnil : tokens = []
  · subst hnil
    have hexpand : expand ([] : List Token) [] = [] := rfl
    rw [hexpand, append_nil]
    exact meets_groups_nil hat (add_assoc _ _ _) hstop hinput
  have hdata : compressedData tokens = encodeTokens 0 0 tokens := if_neg hnil
  rw [hdata] at hat hstop ⊢
  have hs : Standing input s.out (expand tokens [])
      (s.pos + (2 + (encodeTokens 0 0 tokens).length)) 0 tokens []
      { s with pos := s.pos + 2 } :=
    ⟨hat, add_assoc _ _ _, (append_nil _).symm, hfits, rfl⟩
  exact hs.groups ⟨hinput, hstop, houtput, hcapacity⟩

theorem meets_chunk {c : Chunk} (hvalid : c.Valid) (hinput : input.length ≤ isizeMax)
    (hat : At input s.pos c.encode) (hstop : s.pos + c.encode.length ≤ input.length)
    (houtput : s.out.length + c.expand.length ≤ maxOutput)
    (hcapacity : s.out.length + c.expand.length ≤ isizeMax) :
    Meets (fun _ => False) (lznt1Chunk input maxOutput s)
      (· = .next { pos := s.pos + c.encode.length, out := s.out ++ c.expand }) := by
  have hisize : isizeMax < 2 ^ 63 := by decide
  have hlen : c.encode.length = 2 + c.data.length := length_append
  rw [hlen] at hstop ⊢
  rw [lznt1Chunk]
  refine (meets_addW (by omega)).next ?_
  rw [if_neg (by omega)]
  cases c with
  | stored bytes =>
    obtain ⟨hpos, hmax⟩ := hvalid
    have hdata : (Chunk.stored bytes).data = bytes := rfl
    have hheader : (Chunk.stored bytes).header = 0x3000 + (bytes.length - 1) := rfl
    rw [Chunk.encode, hheader, hdata] at hat
    rw [hdata] at hstop ⊢
    refine (meets_readU16Le_at (by omega) hat.head).next ?_
    refine (meets_addW (by omega)).next ?_
    rw [if_neg (by omega), (header_length (by omega)).1]
    refine (meets_addW (by omega)).next ?_
    refine (meets_addW (by omega)).next ?_
    rw [if_neg (by omega), if_pos (header_compressed (by omega)).1]
    have hexpand : (Chunk.stored bytes).expand = bytes := rfl
    rw [hexpand] at houtput hcapacity
    refine (meets_addW (by omega)).next ?_
    rw [if_neg (by omega), getSlice, if_pos ⟨by omega, by omega⟩]
    refine meets_ok.next ?_
    have hslice : (input.drop (s.pos + 2)).take (s.pos + 2 + (bytes.length - 1 + 1) - (s.pos + 2)) =
        bytes := by
      rw [show s.pos + 2 + (bytes.length - 1 + 1) - (s.pos + 2) = bytes.length by omega]
      exact hat.tail.take_drop
    rw [hslice, extendFromSlice, if_pos hcapacity]
    refine meets_ok.next ?_
    refine Meets.pure ?_
    rw [show s.pos + 2 + (bytes.length - 1 + 1) = s.pos + (2 + bytes.length) by omega]
    rfl
  | compressed tokens =>
    obtain ⟨hfits, hproduced, hmax⟩ := hvalid
    have hdata : (Chunk.compressed tokens).data = compressedData tokens := rfl
    have hheader : (Chunk.compressed tokens).header =
        0xB000 + ((compressedData tokens).length - 1) := rfl
    have hpos := length_compressedData_pos tokens
    rw [Chunk.encode, hheader, hdata] at hat
    rw [hdata] at hstop ⊢
    refine (meets_readU16Le_at (by omega) hat.head).next ?_
    refine (meets_addW (by omega)).next ?_
    rw [if_neg (by omega), (header_length (by omega)).2]
    refine (meets_addW (by omega)).next ?_
    refine (meets_addW (by omega)).next ?_
    rw [if_neg (by omega), if_neg (header_compressed (by omega)).2]
    have hend : s.pos + 2 + ((compressedData tokens).length - 1 + 1) =
        s.pos + (2 + (compressedData tokens).length) := by omega
    rw [hend]
    refine Meets.seq (Sum.elim (fun t => t.out = s.out ++ Lz77.expand tokens []) fun _ => False)
      ?_ ?_
    · exact meets_compressed hinput hat.tail hstop hfits houtput hcapacity
    rintro (t | r) hresult
    · refine Meets.pure ?_
      rw [show t.out = s.out ++ Lz77.expand tokens [] from hresult]
      rfl
    · exact hresult.elim

/-! ### A buffer -/

/-- The decoder stands between two chunks: the rest of the buffer is behind the cursor. -/
structure Between (input full : List UInt8) (mark : List UInt8) (chunks : List Chunk)
    (s : Cursor) : Prop where
  bytes : At input s.pos (chunks.flatMap Chunk.encode ++ mark)
  stop : s.pos + (chunks.flatMap Chunk.encode ++ mark).length = input.length
  valid : ∀ c ∈ chunks, c.Valid
  whole : s.out ++ expandAll chunks = full

theorem Between.step {mark : List UInt8} {chunks : List Chunk} (hmark : mark = [] ∨ mark = [0, 0])
    (hinput : input.length ≤ isizeMax) (houtput : full.length ≤ maxOutput)
    (hcapacity : full.length ≤ isizeMax) (hs : Between input full mark chunks s) :
    Meets (fun _ => False) (lznt1Chunk input maxOutput s) (LoopStep.Ends
        (fun t => (∃ chunks, Between input full mark chunks t) ∧
          input.length - t.pos < input.length - s.pos) (fun t => t.out = full) fun _ => False) := by
  have hisize : isizeMax < 2 ^ 63 := by decide
  obtain ⟨hbytes, hstop, hvalid, hwhole⟩ := hs
  cases chunks with
  | nil =>
    have hout : s.out = full := by
      rw [← hwhole]
      exact (append_nil _).symm
    rw [flatMap_nil, nil_append] at hbytes hstop
    rw [lznt1Chunk]
    rcases hmark with rfl | rfl
    · rw [length_nil] at hstop
      refine (meets_addW (by omega)).next ?_
      rw [if_pos (by omega)]
      exact hout
    have hlen : ([0, 0] : List UInt8).length = 2 := rfl
    rw [hlen] at hstop
    refine (meets_addW (by omega)).next ?_
    rw [if_neg (by omega)]
    have hread : Meets (fun _ => False) (readU16Le input s.pos) (· = 0) :=
      meets_readU16Le_at (by decide) hbytes
    refine hread.next ?_
    refine (meets_addW (by omega)).next ?_
    exact hout
  | cons c chunks =>
    rw [flatMap_cons, append_assoc] at hbytes hstop
    rw [length_append] at hstop
    have hexpand : expandAll (c :: chunks) = c.expand ++ expandAll chunks := flatMap_cons
    rw [hexpand, ← append_assoc] at hwhole
    have hlen := congrArg List.length hwhole
    rw [length_append, length_append] at hlen
    have hencode : 2 ≤ c.encode.length := by
      rw [Chunk.encode, length_append]
      exact le_add_right 2 _
    refine (meets_chunk (hvalid c mem_cons_self) hinput hbytes.head (by omega) (by omega)
      (by omega)).mono ?_
    rintro _ rfl
    refine ⟨⟨chunks, hbytes.tail, ?_, fun c' hc' => hvalid c' (mem_cons_of_mem c hc'), hwhole⟩, ?_⟩
    · simp only
      omega
    · simp only
      omega

end Decoding

theorem markOf_cases (chunks : List Chunk) (marked : Bool) :
    markOf chunks marked = [] ∨ markOf chunks marked = [0, 0] := by
  unfold markOf
  split
  · exact Or.inr rfl
  · exact Or.inl rfl

theorem encode_ne_nil (chunks : List Chunk) (marked : Bool) : encode chunks marked ≠ [] := by
  intro hnil
  obtain ⟨hchunks, hmark⟩ := append_eq_nil_iff.mp hnil
  cases chunks with
  | nil =>
    rw [markOf, if_pos (Or.inr rfl)] at hmark
    exact absurd hmark (cons_ne_nil _ _)
  | cons c chunks =>
    rw [flatMap_cons, append_eq_nil_iff, Chunk.encode] at hchunks
    exact absurd hchunks.1 (cons_ne_nil _ _)

/-- The decoder inverts the encoding of any list of chunks, given room for what they expand to. -/
theorem lznt1Decompress_encode (chunks : List Chunk) (marked : Bool) (maxOutput : Nat)
    (hvalid : ∀ c ∈ chunks, c.Valid) (hinput : (encode chunks marked).length ≤ isizeMax)
    (hcapacity : (expandAll chunks).length ≤ isizeMax)
    (houtput : (expandAll chunks).length ≤ maxOutput) :
    lznt1Decompress (encode chunks marked) maxOutput = .ok (some (expandAll chunks)) := by
  have hloop : Meets (fun _ => False)
      (whileLoop .outOfFuel (fun _ => true) (lznt1Chunk (encode chunks marked) maxOutput)
        ((encode chunks marked).length + 1) { pos := 0, out := [] })
      (Sum.elim (fun t => t.out = expandAll chunks) fun _ => False) := by
    refine meets_whileLoop (fun t => (encode chunks marked).length - t.pos)
      (fun t => ∃ rest, Between (encode chunks marked) (expandAll chunks) (markOf chunks marked)
        rest t) ⟨chunks, prefix_rfl, zero_add _, hvalid, rfl⟩ (by omega)
      (fun _ _ hclosed => absurd hclosed (by decide)) ?_
    rintro t - ⟨rest, ht⟩ -
    exact ht.step (markOf_cases chunks marked) hinput houtput hcapacity
  apply Meets.eq_ok
  rw [lznt1Decompress, if_neg (by simpa using encode_ne_nil chunks marked)]
  refine hloop.bind ?_
  rintro (t | r) ht
  · exact Meets.pure (congrArg some ht)
  · exact ht.elim

/-- A stored chunk, and one with a copy that overlaps itself and one whose displacement takes five
bits. -/
def twoChunks : List Chunk :=
  [.stored [1, 2], .compressed [.literal 65, .copy 1 19, .literal 66, .copy 18 4]]

theorem lznt1Decompress_two_chunks : lznt1Decompress (encode twoChunks false) 27 =
      .ok (some ([1, 2] ++ replicate 20 65 ++ [66] ++ replicate 4 65)) :=
  lznt1Decompress_encode twoChunks false 27 (by decide) (by decide) (by decide) (by decide)

end Lznt1

end Mwemu.Decompress
