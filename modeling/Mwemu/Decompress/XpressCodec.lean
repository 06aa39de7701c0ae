import Mwemu.Decompress.Lznt1Codec
import Mwemu.Decompress.Xpress

/-!
# What Xpress decompresses of its encoding

The format: tokens in groups of 32, each group behind a word with a flag for every token, the first
token in the highest bit. A match is a word with its offset and three bits of its length; a longer
length goes on in half a byte, which two matches share, and from there in a byte and in words.

The decoder takes the flags from the lowest bit on, knows no half bytes, and copies from a source
that runs ahead of the output. `Readable` says where the first two make no difference; there the
decoder writes the expansion exactly if every copy is `Aligned`.
-/

namespace Mwemu.Decompress

open Mwemu.Lib Mwemu.Lib.Lz77 List Nat
open Lznt1 (u16Bytes meets_ok meets_getByte_at meets_readU16Le_at meets_copyMatch_from)

namespace Xpress

/-! ### The format -/

abbrev Token := Lz77.Token UInt8

/-- Which bit of a flag word belongs to the first token of its group. The format says the highest
one; the comments of the decoder's tests say the lowest one. -/
inductive BitOrder where
  | highestFirst
  | lowestFirst
  deriving DecidableEq, Repr

def BitOrder.place : BitOrder → Nat → Nat
  | .highestFirst, j => 31 - j
  | .lowestFirst, j => j

def TokenFits (cur : Nat) : Token → Prop
  | .literal _ => True
  | .copy disp len => (1 ≤ disp ∧ disp ≤ cur) ∧ disp ≤ 8192 ∧ 3 ≤ len ∧ len - 3 < 2 ^ 32

instance (cur : Nat) (t : Token) : Decidable (TokenFits cur t) := by
  cases t <;> unfold TokenFits <;> infer_instance

def u32Bytes (value : Nat) : List UInt8 :=
  u16Bytes (value % 2 ^ 16) ++ u16Bytes (value / 2 ^ 16)

def isLong : Token → Bool
  | .literal _ => false
  | .copy _ len => decide (10 ≤ len)

def nibble (len : Nat) : Nat := min (len - 10) 15

def nextNibble : List Token → Nat
  | [] => 0
  | t :: ts => if isLong t then nibble t.size else nextNibble ts

def lengthTail (len : Nat) : List UInt8 :=
  if len < 25 then []
  else if len < 280 then [UInt8.ofNat (len - 25)]
  else 255 :: if len - 3 < 2 ^ 16 then u16Bytes (len - 3) else u16Bytes 0 ++ u32Bytes (len - 3)

/-- The length of a long match: the first of two writes the half bytes of both. -/
def longBytes (half : Bool) (len : Nat) (rest : List Token) : List UInt8 :=
  (if half then [] else [UInt8.ofNat (nibble len + 16 * nextNibble rest)]) ++ lengthTail len

def tagOf (disp len : Nat) : Nat := (disp - 1) * 8 + min (len - 3) 7

/-- A token before the tokens `rest`; `half` says that a half byte is left over. -/
def tokenBytes (half : Bool) (t : Token) (rest : List Token) : List UInt8 :=
  match t with
  | .literal b => [b]
  | .copy disp len =>
    u16Bytes (tagOf disp len) ++ if len < 10 then [] else longBytes half len rest

def nextHalf (half : Bool) (t : Token) : Bool := if isLong t then !half else half

def flag (ts : List Token) (k : Nat) : Bool := (ts[k]?).elim true Lz77.Token.isCopy

def flagWord (order : BitOrder) (ts : List Token) : Nat :=
  Nat.ofBits fun j : Fin 32 => flag ts (order.place j)

def encodeFrom (order : BitOrder) : Bool → Nat → List Token → List UInt8
  | _, 0, [] => u32Bytes (flagWord order [])
  | _, _ + 1, [] => []
  | half, 0, t :: ts =>
    u32Bytes (flagWord order (t :: ts)) ++
      (tokenBytes half t ts ++ encodeFrom order (nextHalf half t) 31 ts)
  | half, left + 1, t :: ts =>
    tokenBytes half t ts ++ encodeFrom order (nextHalf half t) left ts

def encode (order : BitOrder) (ts : List Token) : List UInt8 :=
  encodeFrom order false 0 ts

/-! ### Where the decoder reads it -/

/-- The flags of every group are the same from both ends, and at most one match is long, with a
length that fits in a half byte. -/
structure Readable (order : BitOrder) (ts : List Token) : Prop where
  flags : ∀ g j, j < 32 → 32 * g + j < ts.length →
    flag (ts.drop (32 * g)) (order.place j) = flag (ts.drop (32 * g)) j
  short : ∀ t ∈ ts, t.size ≤ 24
  single : (ts.filter isLong).length ≤ 1

/-- Among the last `disp` bytes, the decoder copies the one at `2 * i` for the one at `i`. -/
def TokenAligned (out : List UInt8) : Token → Prop
  | .literal _ => True
  | .copy disp len => ∀ i < len,
      out[out.length - disp + 2 * i % disp]? = out[out.length - disp + i % disp]?

/-- No copy of the expansion behind `out` notices the difference. -/
def Aligned : List UInt8 → List Token → Prop
  | _, [] => True
  | out, t :: ts => TokenAligned out t ∧ Aligned (t.expand out) ts

instance (out : List UInt8) (t : Token) : Decidable (TokenAligned out t) := by
  cases t <;> unfold TokenAligned <;> infer_instance

instance decidableAligned : (out : List UInt8) → (ts : List Token) → Decidable (Aligned out ts)
  | _, [] => isTrue trivial
  | out, t :: ts =>
    have := decidableAligned (t.expand out) ts
    inferInstanceAs (Decidable (TokenAligned out t ∧ Aligned (t.expand out) ts))

def skew : Token → List UInt8 → List UInt8
  | .literal b, out => out ++ [b]
  | .copy disp len, out => copyFrom disp (fun i => i % disp) len out

def skewAll (ts : List Token) (out : List UInt8) : List UInt8 :=
  ts.foldl (fun out t => skew t out) out

/-! ### The copies -/

variable {t : Token}

theorem TokenFits.within {cur : Nat} (hfits : TokenFits cur t) : t.Within cur := by
  cases t with
  | literal b => trivial
  | copy disp len => exact hfits.1

theorem TokenFits.size_pos {cur : Nat} (hfits : TokenFits cur t) : 1 ≤ t.size := by
  cases t with
  | literal b => exact le_refl 1
  | copy disp len => exact le_trans (by decide) hfits.2.2.1

section Copies

variable {t : Token} {out : List UInt8} (hfits : TokenFits out.length t)
include hfits

theorem length_skew : (skew t out).length = out.length + t.size := by
  cases t with
  | literal b => exact length_append
  | copy disp len => exact length_copyFrom (fun i => mod_lt i hfits.1.1) hfits.1.2 len

theorem skew_eq_expand_iff : skew t out = t.expand out ↔ TokenAligned out t := by
  cases t with
  | literal b => exact ⟨fun _ => trivial, fun _ => rfl⟩
  | copy disp len =>
    have hdouble : ∀ i, (i + i % disp) % disp = 2 * i % disp := by
      intro i
      rw [add_mod_mod, two_mul]
    refine (copyFrom_eq_copyBack_iff (fun i => mod_lt i hfits.1.1) hfits.1.2 len).trans ?_
    simp only [hdouble]
    rfl

end Copies

theorem prefix_copyFrom (disp : Nat) (ahead : Nat → Nat) (len : Nat) (out : List UInt8) :
    out <+: copyFrom disp ahead len out := by
  induction len with
  | zero => exact prefix_refl out
  | succ len ih => exact ih.trans (prefix_append _ _)

theorem prefix_skew (t : Token) (out : List UInt8) : out <+: skew t out := by
  cases t with
  | literal b => exact prefix_append _ _
  | copy disp len => exact prefix_copyFrom disp _ len out

theorem prefix_skewAll (ts : List Token) (out : List UInt8) : out <+: skewAll ts out := by
  induction ts generalizing out with
  | nil => exact prefix_refl out
  | cons t ts ih => exact (prefix_skew t out).trans (ih (skew t out))

theorem prefix_expand (ts : List Token) (out : List UInt8) : out <+: expand ts out := by
  induction ts generalizing out with
  | nil => exact prefix_refl out
  | cons t ts ih =>
    refine List.IsPrefix.trans ?_ (ih (t.expand out))
    cases t with
    | literal b => exact prefix_append _ _
    | copy disp len =>
      rw [Lz77.Token.expand, ← copyFrom_zero]
      exact prefix_copyFrom disp _ len out

variable {ts : List Token}

theorem skewAll_eq_expand_iff {out : List UInt8} (hfits : EachAt TokenFits out.length ts) :
    skewAll ts out = expand ts out ↔ Aligned out ts := by
  induction ts generalizing out with
  | nil => exact ⟨fun _ => trivial, fun _ => rfl⟩
  | cons t ts ih =>
    obtain ⟨hfit, hrest⟩ := hfits
    have hlen := Lz77.Token.length_expand hfit.within
    rw [← hlen] at hrest
    constructor
    · intro heq
      have hskew : skew t out <+: expand (t :: ts) out := heq ▸ prefix_skewAll ts (skew t out)
      have hexpand : t.expand out <+: expand (t :: ts) out := prefix_expand ts (t.expand out)
      have hsame : (skew t out).length = (t.expand out).length := by
        rw [length_skew hfit, hlen]
      have htoken : skew t out = t.expand out :=
        (prefix_of_prefix_length_le hskew hexpand (le_of_eq hsame)).eq_of_length hsame
      refine ⟨(skew_eq_expand_iff hfit).mp htoken, (ih hrest).mp ?_⟩
      rw [← expand_cons, ← heq, ← htoken]
      rfl
    · rintro ⟨htoken, halign⟩
      rw [expand_cons, ← (ih hrest).mpr halign, ← (skew_eq_expand_iff hfit).mpr htoken]
      rfl

theorem length_skewAll {out out' : List UInt8} (hlen : out.length = out'.length)
    (hfits : EachAt TokenFits out.length ts) :
    (skewAll ts out).length = (expand ts out').length := by
  induction ts generalizing out out' with
  | nil => exact hlen
  | cons t ts ih =>
    have hskew := length_skew hfits.1
    have hexpand := Lz77.Token.length_expand (hlen ▸ hfits.1.within)
    refine ih ?_ (hskew ▸ hfits.2)
    rw [hskew, hexpand, hlen]

/-! ### Reading a token -/

variable {input : List UInt8} {allowed : Fault → Prop}

theorem meets_readU32Le_at {pos value : Nat} (hvalue : value < 2 ^ 32)
    (hat : At input pos (u32Bytes value)) : Meets allowed (readU32Le input pos) (· = value) := by
  refine (meets_readU16Le_at (mod_lt _ (by decide)) hat.head).next ?_
  have htail : At input (pos + 2) (u16Bytes (value / 2 ^ 16)) := At.tail hat
  refine (meets_readU16Le_at (by omega) htail).next ?_
  exact Meets.pure (by omega)

theorem tagOf_lt {disp len : Nat} (hdisp : disp ≤ 8192) : tagOf disp len < 2 ^ 16 := by
  rw [tagOf]
  omega

theorem tagOf_offset (disp len : Nat) : tagOf disp len >>> 3 = disp - 1 := by
  rw [shiftRight_eq_div_pow, tagOf]
  omega

theorem tagOf_length (disp len : Nat) : tagOf disp len &&& 7 = min (len - 3) 7 := by
  rw [show 7 = 2 ^ 3 - 1 from rfl, and_two_pow_sub_one_eq_mod, tagOf]
  omega

/-- The length of a match that shares no half byte, as the decoder reads it. -/
def plainLength (len : Nat) : List UInt8 :=
  if len < 10 then [] else [UInt8.ofNat (len - 10)]

theorem meets_matchLength_at {pos len : Nat}
    (hinput : input.length ≤ isizeMax) (hlow : 3 ≤ len) (hhigh : len ≤ 24)
    (hat : At input pos (plainLength len)) (hstop : pos + (plainLength len).length ≤ input.length) :
    Meets allowed (matchLength input 7 (min (len - 3) 7) pos)
      (· = some (len - 3, pos + (plainLength len).length)) := by
  have hisize : isizeMax < 2 ^ 63 := by decide
  rw [matchLength]
  by_cases hlong : len < 10
  · rw [plainLength, if_pos hlong, if_neg (by omega)]
    refine Meets.pure ?_
    rw [min_eq_left (by omega)]
    rfl
  rw [plainLength, if_neg hlong] at hat hstop ⊢
  rw [length_singleton] at hstop ⊢
  rw [if_pos (by omega), if_neg (by omega)]
  refine (meets_getByte_at hat).next ?_
  have hextra : (UInt8.ofNat (len - 10)).toNat = len - 10 := by
    rw [UInt8.toNat_ofNat', mod_eq_of_lt (by omega)]
  rw [hextra]
  refine (meets_addW (by omega)).next ?_
  rw [if_neg (by omega)]
  refine (meets_addW (by omega)).next ?_
  refine Meets.pure ?_
  rw [show len - 10 + 7 = len - 3 by omega]

def plainBytes : Token → List UInt8
  | .literal b => [b]
  | .copy disp len => u16Bytes (tagOf disp len) ++ plainLength len

theorem plainBytes_ne_nil (t : Token) : plainBytes t ≠ [] := by
  cases t <;> exact cons_ne_nil _ _

variable {maxOutput indicator : Nat} {s : Cursor}

theorem meets_token {bitIdx : Nat} (hinput : input.length ≤ isizeMax)
    (hat : At input s.pos (plainBytes t)) (hstop : s.pos + (plainBytes t).length ≤ input.length)
    (hfits : TokenFits s.out.length t) (hsize : t.size ≤ 24)
    (hflag : (indicator >>> bitIdx) &&& 1 = t.isCopy.toNat)
    (hroom : s.out.length + t.size ≤ maxOutput) (hcap : s.out.length + t.size ≤ isizeMax) :
    Meets (fun _ => False) (xpressToken input maxOutput indicator bitIdx s)
      (· = .next { pos := s.pos + (plainBytes t).length, out := skew t s.out }) := by
  have hisize : isizeMax < 2 ^ 63 := by decide
  have hsome := length_pos_of_ne_nil (plainBytes_ne_nil t)
  have hpos := hfits.size_pos
  rw [xpressToken, hflag, if_neg (by omega)]
  cases t with
  | literal b =>
    rw [if_pos (show (Lz77.Token.literal b).isCopy.toNat = 0 from rfl)]
    rw [Lz77.Token.size] at hcap
    refine (meets_getByte_at hat).next ?_
    rw [push, if_pos (by omega)]
    refine meets_ok.next ?_
    refine (meets_addW (by omega)).next ?_
    exact Meets.pure rfl
  | copy disp len =>
    obtain ⟨⟨hdisp, hcur⟩, hdisp', hlen, -⟩ := hfits
    have hbytes : (plainBytes (.copy disp len)).length = 2 + (plainLength len).length :=
      length_append
    rw [hbytes] at hstop ⊢
    rw [Lz77.Token.size] at hroom hcap hsize
    rw [if_neg (show ¬ (Lz77.Token.copy disp len : Token).isCopy.toNat = 0 from one_ne_zero)]
    refine (meets_addW (by omega)).next ?_
    rw [if_neg (by omega)]
    refine (meets_readU16Le_at (tagOf_lt hdisp') hat.head).next ?_
    refine (meets_addW (by omega)).next ?_
    rw [tagOf_offset, tagOf_length]
    refine (meets_addW (by omega)).next ?_
    have htail : At input (s.pos + 2) (plainLength len) := At.tail hat
    refine (meets_matchLength_at hinput hlen hsize htail (by omega)).next ?_
    refine (meets_addW (by omega)).next ?_
    rw [show len - 3 + 3 = len by omega, show disp - 1 + 1 = disp by omega, if_neg (by omega)]
    refine (meets_copyMatch_from (fun i => mod_lt i hdisp) hcur hroom hcap).next ?_
    refine Meets.pure ?_
    rw [add_assoc]
    rfl

/-! ### The flags -/

theorem testBit_flagWord (order : BitOrder) (ts : List Token) {j : Nat} (hj : j < 32) :
    (flagWord order ts).testBit j = flag ts (order.place j) :=
  testBit_ofBits_lt _ j hj

theorem flagWord_lt (order : BitOrder) (ts : List Token) : flagWord order ts < 2 ^ 32 :=
  ofBits_lt_two_pow _

theorem shiftRight_and_one (n k : Nat) : (n >>> k) &&& 1 = (n.testBit k).toNat := by
  rw [Nat.testBit, Nat.and_comm 1]
  rcases Nat.mod_two_eq_zero_or_one (n >>> k) with hbit | hbit <;>
    rw [Nat.and_one_is_mod, hbit] <;> rfl

theorem flag_of_getElem? {k : Nat} (ht : ts[k]? = some t) : flag ts k = t.isCopy := by
  rw [flag, ht]
  rfl

/-! ### A group -/

theorem encodeFrom_zero (order : BitOrder) (half : Bool) (ts : List Token) :
    encodeFrom order half 0 ts = u32Bytes (flagWord order ts) ++ encodeFrom order half 32 ts := by
  cases ts with
  | nil => exact (append_nil _).symm
  | cons t ts => rfl

theorem nextNibble_eq_zero (hnone : ts.filter isLong = []) : nextNibble ts = 0 := by
  induction ts with
  | nil => rfl
  | cons t ts ih =>
    have ht : ¬ isLong t = true := fun hlong => by
      rw [filter_cons_of_pos hlong] at hnone
      cases hnone
    rw [filter_cons_of_neg ht] at hnone
    rw [nextNibble, if_neg ht, ih hnone]

/-- The lengths of the tokens that are left: at most one of them is long, and none if there is a
half byte to share. -/
structure Lengths (half : Bool) (ts : List Token) : Prop where
  short : ∀ t ∈ ts, t.size ≤ 24
  single : (ts.filter isLong).length ≤ 1
  shared : half = true → ts.filter isLong = []

variable {half : Bool}

theorem Lengths.tail (hlengths : Lengths half (t :: ts)) : Lengths (nextHalf half t) ts := by
  obtain ⟨hshort, hsingle, hshared⟩ := hlengths
  have hshort' : ∀ u ∈ ts, u.size ≤ 24 := fun u hu => hshort u (mem_cons_of_mem t hu)
  by_cases hlong : isLong t = true
  · rw [filter_cons_of_pos hlong, length_cons] at hsingle
    exact ⟨hshort', by omega, fun _ => eq_nil_of_length_eq_zero (by omega)⟩
  · rw [filter_cons_of_neg hlong] at hsingle hshared
    rw [nextHalf, if_neg hlong]
    exact ⟨hshort', hsingle, hshared⟩

theorem Lengths.tokenBytes_eq (hlengths : Lengths half (t :: ts)) :
    tokenBytes half t ts = plainBytes t := by
  cases t with
  | literal b => rfl
  | copy disp len =>
    rw [tokenBytes, plainBytes, plainLength]
    by_cases hlen : len < 10
    · rw [if_pos hlen, if_pos hlen]
    have hlong : isLong (.copy disp len) = true := decide_eq_true (Nat.le_of_not_lt hlen)
    have hhalf : half = false := by
      cases half with
      | false => rfl
      | true =>
        have hnone := hlengths.shared rfl
        rw [filter_cons_of_pos hlong] at hnone
        cases hnone
    have hrest : ts.filter isLong = [] := by
      have hsingle := hlengths.single
      rw [filter_cons_of_pos hlong, length_cons] at hsingle
      exact eq_nil_of_length_eq_zero (by omega)
    have hsize : len ≤ 24 := hlengths.short _ mem_cons_self
    rw [if_neg hlen, if_neg hlen, longBytes, hhalf, nextNibble_eq_zero hrest, lengthTail,
      if_pos (show len < 25 by omega), nibble, min_eq_left (show len - 10 ≤ 15 by omega)]
    rfl

/-- The flags of the groups behind the next `left` tokens. -/
def FlagsFrom (order : BitOrder) (left : Nat) (ts : List Token) : Prop :=
  ∀ g j, j < 32 → left + 32 * g + j < ts.length →
    flag (ts.drop (left + 32 * g)) (order.place j) = flag (ts.drop (left + 32 * g)) j

variable {order : BitOrder} {left : Nat}

theorem FlagsFrom.tail (hflags : FlagsFrom order (left + 1) (t :: ts)) :
    FlagsFrom order left ts := by
  intro g j hj hlt
  have hdrop : (t :: ts).drop (left + 1 + 32 * g) = ts.drop (left + 32 * g) := by
    rw [show left + 1 + 32 * g = left + 32 * g + 1 by omega, drop_succ_cons]
  have hflag := hflags g j hj (by rw [length_cons]; omega)
  rwa [hdrop] at hflag

theorem FlagsFrom.rest (hflags : FlagsFrom order 0 ts) : FlagsFrom order 32 ts := by
  intro g j hj hlt
  have hflag := hflags (g + 1) j hj (by omega)
  rwa [show 0 + 32 * (g + 1) = 32 + 32 * g by omega] at hflag

section Decoding

variable {order : BitOrder} {input whole : List UInt8} {maxOutput : Nat}

/-- Behind the cursor are the rest of the tokens, with `left` of them in the current group, up to
the end of the input; with them the decoder writes `whole`. -/
structure Standing (order : BitOrder) (input whole : List UInt8) (half : Bool) (left : Nat)
    (ts : List Token) (s : Cursor) : Prop where
  bytes : At input s.pos (encodeFrom order half left ts)
  stop : s.pos + (encodeFrom order half left ts).length = input.length
  fits : EachAt TokenFits s.out.length ts
  lengths : Lengths half ts
  flags : FlagsFrom order left ts
  whole : skewAll ts s.out = whole

structure Room (input whole : List UInt8) (maxOutput : Nat) : Prop where
  slice : input.length ≤ isizeMax
  output : whole.length ≤ maxOutput
  capacity : whole.length ≤ isizeMax

theorem Standing.lt_whole (hs : Standing order input whole half left (t :: ts) s) :
    s.out.length + t.size ≤ whole.length := by
  have hgrow := (prefix_skewAll ts (skew t s.out)).length_le
  rw [length_skew hs.fits.1] at hgrow
  rw [← hs.whole]
  exact hgrow

theorem Standing.token {bitIdx : Nat} (hroom : Room input whole maxOutput)
    (hs : Standing order input whole half (left + 1) (t :: ts) s)
    (hflag : (indicator >>> bitIdx) &&& 1 = t.isCopy.toNat) :
    Meets (fun _ => False) (xpressToken input maxOutput indicator bitIdx s) (LoopStep.Ends
        (fun s' => Standing order input whole (nextHalf half t) left ts s' ∧ s.pos ≤ s'.pos)
        (fun _ => False) fun _ => False) := by
  have hgrow := hs.lt_whole
  obtain ⟨hbytes, hstop, hfits, hlengths, hflags, hwhole⟩ := hs
  have hlen := length_skew hfits.1
  rw [encodeFrom, hlengths.tokenBytes_eq] at hbytes hstop
  rw [length_append] at hstop
  have houtput := hroom.output
  have hcapacity := hroom.capacity
  refine (meets_token hroom.slice hbytes.head (by omega) hfits.1
    (hlengths.short t mem_cons_self) hflag (by omega) (by omega)).mono ?_
  rintro _ rfl
  refine ⟨⟨hbytes.tail, ?_, ?_, hlengths.tail, hflags.tail, hwhole⟩, le_add_right _ _⟩
  · rw [add_assoc]
    exact hstop
  · rw [hlen]
    exact hfits.2

/-- The end of a run: nothing is left in the input and the output is complete. -/
def Finished (input whole : List UInt8) (s : Cursor) : Prop :=
  s.pos = input.length ∧ s.out = whole

/-- Where the loop over the groups evaluates its condition. -/
def Between (order : BitOrder) (input whole : List UInt8) (s : Cursor) : Prop :=
  (∃ half ts, Standing order input whole half 0 ts s) ∨ Finished input whole s

theorem Standing.group (hroom : Room input whole maxOutput)
    (hs : Standing order input whole half 0 ts s) :
    Meets (fun _ => False) (xpressGroup input maxOutput s) (LoopStep.Ends
        (fun s' => Between order input whole s' ∧ input.length - s'.pos < input.length - s.pos)
        (fun _ => False) fun _ => False) := by
  have hisize : isizeMax < 2 ^ 63 := by decide
  have hinput := hroom.slice
  obtain ⟨hbytes, hstop, hfits, hlengths, hflags, hwhole⟩ := hs
  rw [encodeFrom_zero] at hbytes hstop
  have hword : (u32Bytes (flagWord order ts)).length = 4 := rfl
  rw [length_append, hword] at hstop
  rw [xpressGroup]
  refine (meets_addW (by omega)).next ?_
  rw [if_neg (by omega)]
  refine (meets_readU32Le_at (flagWord_lt order ts) hbytes.head).next ?_
  refine (meets_addW (by omega)).next ?_
  -- after `i` tokens of the group, the flags of the rest start at bit `i`
  let inv (i : Nat) (s' : Cursor) : Prop :=
    ∃ half' ts', Standing order input whole half' (32 - i) ts' s' ∧ s.pos < s'.pos ∧
      ∀ j u, ts'[j]? = some u → i + j < 32 → (flagWord order ts >>> (i + j)) &&& 1 = u.isCopy.toNat
  let post (s' : Cursor) : Prop := Between order input whole s' ∧ s.pos < s'.pos
  refine Meets.seq (Sum.elim post fun _ => False) ?_ ?_
  · refine meets_forRange inv ?_ ?_ ?_
    · refine ⟨half, ts, ⟨?_, ?_, hfits, hlengths, hflags.rest, hwhole⟩, ?_, ?_⟩
      · exact At.tail (a := u32Bytes (flagWord order ts)) hbytes
      · show s.pos + 4 + (encodeFrom order half 32 ts).length = input.length
        omega
      · show s.pos < s.pos + 4
        omega
      · intro j u hu hj
        rw [zero_add] at hj ⊢
        have hlt : j < ts.length := (List.getElem?_eq_some_iff.mp hu).1
        have hsame : flag ts (order.place j) = flag ts j := hflags 0 j hj (by omega)
        rw [shiftRight_and_one, testBit_flagWord order ts hj, hsame, flag_of_getElem? hu]
    · rintro s' ⟨half', ts', hs', hpos, -⟩
      exact ⟨Or.inl ⟨half', ts', hs'⟩, hpos⟩
    · rintro i s' - hi ⟨half', ts', hs', hpos, hbits⟩
      have hleft : 32 - i = 32 - (i + 1) + 1 := by omega
      rw [hleft] at hs'
      cases ts' with
      | nil =>
        have hend := hs'.stop
        rw [encodeFrom, length_nil] at hend
        rw [xpressToken, if_pos (by omega)]
        exact Meets.pure ⟨Or.inr ⟨hend, hs'.whole⟩, hpos⟩
      | cons u ts' =>
        refine (hs'.token hroom (hbits 0 u rfl (by omega))).mono ?_
        rintro (s'' | s'' | r) hflow
        · refine ⟨_, ts', hflow.1, lt_of_lt_of_le hpos hflow.2, fun j v hv hj => ?_⟩
          rw [show i + 1 + j = i + (j + 1) by omega]
          exact hbits (j + 1) v hv (by omega)
        · exact hflow.elim
        · exact hflow
  · rintro (s' | r) hresult
    · exact Meets.pure ⟨hresult.1, by have := hresult.2; omega⟩
    · exact hresult.elim

theorem Between.out_eq (hroom : Room input whole maxOutput) (hs : Between order input whole s)
    (hclosed : (decide (s.pos < input.length) && decide (s.out.length < maxOutput)) = false) :
    s.out = whole := by
  rcases hs with ⟨half, ts, hs⟩ | hs
  · have hstop := hs.stop
    rw [encodeFrom_zero] at hstop
    have hword : (u32Bytes (flagWord order ts)).length = 4 := rfl
    rw [length_append, hword] at hstop
    -- the flag word is there, so the output is full
    have hfull : maxOutput ≤ s.out.length := by
      simp only [Bool.and_eq_false_iff, decide_eq_false_iff_not] at hclosed
      omega
    cases ts with
    | nil => exact hs.whole
    | cons t ts =>
      have hgrow := hs.lt_whole
      have hpos := hs.fits.1.size_pos
      have houtput := hroom.output
      omega
  · exact hs.2

end Decoding

theorem xpressDecompress_eq_skewAll (hfits : EachAt TokenFits 0 ts)
    (hreadable : Readable order ts) (hroom : Room (encode order ts) (skewAll ts []) maxOutput) :
    xpressDecompress (encode order ts) maxOutput = .ok (some (skewAll ts [])) := by
  have hstart : Standing order (encode order ts) (skewAll ts []) false 0 ts
      { pos := 0, out := [] } := by
    refine ⟨prefix_refl _, zero_add _, hfits, ⟨hreadable.short, hreadable.single, nofun⟩,
      ?_, rfl⟩
    intro g j hj hlt
    rw [zero_add] at hlt ⊢
    exact hreadable.flags g j hj hlt
  have hlen : 4 ≤ (encode order ts).length := by
    rw [encode, encodeFrom_zero, length_append]
    exact le_add_right 4 _
  apply Meets.eq_ok
  rw [xpressDecompress, if_neg (by omega)]
  refine Meets.seq (Sum.elim (fun t => t.out = skewAll ts []) fun _ => False) ?_ ?_
  · refine meets_whileLoop (fun t => (encode order ts).length - t.pos)
      (Between order (encode order ts) (skewAll ts [])) (Or.inl ⟨false, ts, hstart⟩)
      (by simp only; omega) (fun t ht hclosed => ht.out_eq hroom hclosed) ?_
    rintro t - ht hopen
    rw [Bool.and_eq_true, decide_eq_true_iff] at hopen
    rcases ht with ⟨half, ts', ht⟩ | ht
    · refine (ht.group hroom).mono ?_
      rintro (u | u | r) hflow
      · exact hflow
      · exact hflow.elim
      · exact hflow
    · have hend := ht.1
      omega
  · rintro (t | r) hresult
    · exact Meets.pure (congrArg some hresult)
    · exact hresult.elim

/-! ### A first token taken for a match -/

section First

variable {input : List UInt8} {maxOutput : Nat}

theorem meets_token_first (hbit : indicator.testBit 0 = true) (hpos : s.pos < input.length)
    (hout : s.out = []) (hslice : input.length ≤ isizeMax) (hmax : 0 < maxOutput) :
    Meets (fun _ => True) (xpressToken input maxOutput indicator 0 s)
      (LoopStep.Ends (fun _ => False) (fun _ => False) fun r => r = none ∨ r = some []) := by
  have hisize : isizeMax < 2 ^ 63 := by decide
  have hflag : (indicator >>> 0) &&& 1 = 1 := by
    rw [shiftRight_and_one, hbit]
    rfl
  have hempty : s.out.length = 0 := by rw [hout, length_nil]
  rw [xpressToken, if_neg (by omega), hflag, if_neg (show ¬ 1 = 0 from one_ne_zero)]
  refine (meets_addW (by omega)).next ?_
  split
  · exact Or.inr (congrArg some hout)
  refine (meets_readU16Le (by omega)).bind fun hint hhint => ?_
  refine (meets_addW (by omega)).next ?_
  have hoffset : hint >>> 3 ≤ hint := shiftRight_le hint 3
  refine (meets_addW (by omega)).next ?_
  have hlength : hint &&& 7 ≤ 7 := and_le_right
  refine (meets_matchLength hslice (by decide) (by omega) (by omega)).bind fun result hres => ?_
  rcases result with _ | ⟨length, pos⟩
  · exact Or.inr (congrArg some hout)
  · have hlen := (hres length pos rfl).1
    refine (meets_addW (by omega)).next ?_
    rw [if_pos (by omega)]
    exact Or.inl rfl

theorem meets_decompress_first (hbit : indicator.testBit 0 = true)
    (hword : Meets (fun _ => False) (readU32Le input 0) (· = indicator))
    (hinput : 4 < input.length) (hslice : input.length ≤ isizeMax) (hmax : 0 < maxOutput) :
    Meets (fun _ => True) (xpressDecompress input maxOutput) fun r => r = none ∨ r = some [] := by
  have hisize : isizeMax < 2 ^ 63 := by decide
  have hgroup : ∀ s : Cursor, s.pos = 0 → s.out = [] →
      Meets (fun _ => True) (xpressGroup input maxOutput s)
        (LoopStep.Ends (fun _ => False) (fun _ => False) fun r => r = none ∨ r = some []) := by
    intro s hpos hout
    rw [xpressGroup]
    refine (meets_addW (by omega)).next ?_
    rw [if_neg (by omega), hpos, hword.eq_ok]
    refine meets_ok.next ?_
    refine (meets_addW (by omega)).next ?_
    refine Meets.seq (Sum.elim (fun _ => False) fun r => r = none ∨ r = some []) ?_ ?_
    · refine meets_forRange (fun i t => i = 0 ∧ t.pos = 4 ∧ t.out = []) ⟨rfl, rfl, hout⟩
        (fun t ht => absurd ht.1 (by decide)) ?_
      rintro _ t - - ⟨rfl, hfour, hempty⟩
      refine (meets_token_first hbit (by omega) hempty hslice hmax).mono ?_
      rintro (u | u | r) hflow
      · exact hflow.elim
      · exact hflow
      · exact hflow
    · rintro (t | r) hresult
      · exact hresult.elim
      · exact Meets.pure hresult
  rw [xpressDecompress, if_neg (by omega)]
  refine Meets.seq (Sum.elim (fun _ => False) fun r => r = none ∨ r = some []) ?_ ?_
  · refine meets_whileLoop (fun _ => 0) (· = { pos := 0, out := [] }) rfl (succ_pos _) ?_ ?_
    · rintro _ rfl hclosed
      simp only [Bool.and_eq_false_iff, decide_eq_false_iff_not, length_nil] at hclosed
      omega
    rintro _ - rfl -
    refine (hgroup _ rfl rfl).mono ?_
    rintro (u | u | r) hflow
    · exact hflow.elim
    · exact hflow
    · exact hflow
  · rintro (t | r) hresult
    · exact hresult.elim
    · exact Meets.pure hresult

end First

theorem tokenBytes_ne_nil (half : Bool) (t : Token) (ts : List Token) :
    tokenBytes half t ts ≠ [] := by
  cases t <;> exact cons_ne_nil _ _

theorem not_decompress_of_flag (hfits : EachAt TokenFits 0 ts) (hne : ts ≠ [])
    (hflag : flag ts 31 = true) (hinput : (encode .highestFirst ts).length ≤ isizeMax)
    (hmax : (expand ts []).length ≤ maxOutput) :
    xpressDecompress (encode .highestFirst ts) maxOutput ≠ .ok (some (expand ts [])) := by
  obtain ⟨t, ts, rfl⟩ := exists_cons_of_ne_nil hne
  have hgrow := (prefix_expand ts (t.expand [])).length_le
  have hwithin : t.Within ([] : List UInt8).length := hfits.1.within
  have hfirst : (t.expand []).length = 0 + t.size := Lz77.Token.length_expand hwithin
  rw [← expand_cons, hfirst] at hgrow
  have hpos := hfits.1.size_pos
  have hsplit := encodeFrom_zero .highestFirst false (t :: ts)
  have hword : At (encode .highestFirst (t :: ts)) 0
      (u32Bytes (flagWord .highestFirst (t :: ts))) := by
    rw [encode, hsplit]
    exact prefix_append _ _
  have hlen : 4 < (encode .highestFirst (t :: ts)).length := by
    have hsome := length_pos_of_ne_nil (tokenBytes_ne_nil false t ts)
    rw [encode, hsplit, length_append, encodeFrom, length_append]
    exact Nat.lt_add_of_pos_right (by omega)
  have hbit : (flagWord .highestFirst (t :: ts)).testBit 0 = true := by
    rw [testBit_flagWord _ _ (by decide)]
    exact hflag
  have hmaxPos : 0 < maxOutput := by omega
  have hresult := meets_decompress_first hbit (meets_readU32Le_at (flagWord_lt _ _) hword) hlen
    hinput hmaxPos
  intro heq
  rw [heq] at hresult
  rcases hresult with hnone | hempty
  · cases hnone
  · rw [Option.some.inj hempty, length_nil] at hgrow
    omega

/-- Where the decoder reads the tokens, it expands them exactly if every copy is aligned; and where
the lowest bit of the first word is set, it never does. -/
theorem xpressDecompress_encode_iff (order : BitOrder) (ts : List Token) (maxOutput : Nat)
    (hfits : EachAt TokenFits 0 ts) (hinput : (encode order ts).length ≤ isizeMax)
    (hmax : (expand ts []).length ≤ maxOutput) (hcap : (expand ts []).length ≤ isizeMax) :
    (Readable order ts → (xpressDecompress (encode order ts) maxOutput = .ok (some (expand ts [])) ↔
        Aligned [] ts)) ∧ (order = .highestFirst → ts ≠ [] → flag ts 31 = true →
      xpressDecompress (encode order ts) maxOutput ≠ .ok (some (expand ts []))) := by
  constructor
  · intro hreadable
    have hlen : (skewAll ts []).length = (expand ts []).length := length_skewAll rfl hfits
    have hrun := xpressDecompress_eq_skewAll hfits hreadable ⟨hinput, hlen ▸ hmax, hlen ▸ hcap⟩
    rw [hrun, Except.ok.injEq, Option.some.injEq]
    have hfits' : EachAt TokenFits ([] : List UInt8).length ts := hfits
    exact skewAll_eq_expand_iff hfits'
  · rintro rfl hne hflag
    exact not_decompress_of_flag hfits hne hflag hinput hmax

/-- A full group with the same flags from both ends: 30 literals, and two runs of one byte. -/
def mirrored : List Token :=
  .literal 0x41 :: .copy 1 12 :: List.replicate 28 (.literal 0x42) ++ [.copy 1 3, .literal 0x43]

theorem readable_mirrored : Readable .highestFirst mirrored := by
  refine ⟨fun g j hj hlt => ?_, by decide, by decide⟩
  have hlen : mirrored.length = 32 := by decide
  obtain rfl : g = 0 := by omega
  clear hlt hlen
  revert j
  decide

theorem aligned_mirrored : Aligned [] mirrored := by
  decide +kernel

theorem xpressDecompress_mirrored :
    xpressDecompress (encode .highestFirst mirrored) 64 = .ok (some (expand mirrored [])) :=
  ((xpressDecompress_encode_iff .highestFirst mirrored 64 (by decide) (by decide) (by decide)
    (by decide)).1 readable_mirrored).mpr aligned_mirrored

/-- A single literal does not come back. Nor would, with the lowest bit first, a copy of offset 2 or
the second of two matches that share a half byte. -/
theorem xpressDecompress_fails :
    (encode .highestFirst [.literal 0x41] = [0xFF, 0xFF, 0xFF, 0x7F, 0x41] ∧
      (xpressDecompress (encode .highestFirst [.literal 0x41]) 1).toOption = some (some [])) ∧
    (expand [.literal 0x41, .literal 0x42, .copy 2 3] [] = [0x41, 0x42, 0x41, 0x42, 0x41] ∧
      (xpressDecompress (encode .lowestFirst [.literal 0x41, .literal 0x42, .copy 2 3])
        5).toOption = some (some [0x41, 0x42, 0x41, 0x41, 0x41])) ∧
    ((expand [.literal 0x41, .copy 1 10, .copy 1 10] []).length = 21 ∧
      ((xpressDecompress (encode .lowestFirst [.literal 0x41, .copy 1 10, .copy 1 10])
        21).toOption.map fun r => r.map List.length) = some (some 11)) := by
  decide +kernel

end Xpress

end Mwemu.Decompress
