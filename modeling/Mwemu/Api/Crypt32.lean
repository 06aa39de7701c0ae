import Mathlib.Tactic.IntervalCases

/-!
# Base64 and hexadecimal texts

`base64_decode` drops whitespace and decodes four characters at a time. It gives the padding
character the value zero wherever it stands, so it inverts the encoding but accepts more than the
encodings.
-/

namespace Mwemu.Api.Crypt32

open Nat

/-! ### The decoders -/

def isAsciiWhitespace (b : UInt8) : Bool :=
  b == 32 || b == 9 || b == 10 || b == 12 || b == 13

def pad : UInt8 := '='.toUInt8

def decodeChar (c : UInt8) : Option UInt8 :=
  if 'A'.toUInt8 ≤ c ∧ c ≤ 'Z'.toUInt8 then some (c - 'A'.toUInt8)
  else if 'a'.toUInt8 ≤ c ∧ c ≤ 'z'.toUInt8 then some (c - 'a'.toUInt8 + 26)
  else if '0'.toUInt8 ≤ c ∧ c ≤ '9'.toUInt8 then some (c - '0'.toUInt8 + 52)
  else if c = '+'.toUInt8 then some 62
  else if c = '/'.toUInt8 then some 63
  else if c = pad then some 0
  else none

def tripleOf (a b c d : UInt8) : Nat :=
  a.toNat <<< 18 ||| b.toNat <<< 12 ||| c.toNat <<< 6 ||| d.toNat

def decodeChunk (c0 c1 c2 c3 : UInt8) : Option (List UInt8) := do
  let a ← decodeChar c0
  let b ← decodeChar c1
  let c ← decodeChar c2
  let d ← decodeChar c3
  let triple := tripleOf a b c d
  some ([UInt8.ofNat (triple >>> 16)] ++
    (if c2 ≠ pad then [UInt8.ofNat (triple >>> 8)] else []) ++
    (if c3 ≠ pad then [UInt8.ofNat triple] else []))

/-- The loop over `filtered.chunks(4)`, for a length that is a multiple of four. -/
def decodeChunks : List UInt8 → Option (List UInt8)
  | c0 :: c1 :: c2 :: c3 :: rest => do
      let bytes ← decodeChunk c0 c1 c2 c3
      let out ← decodeChunks rest
      some (bytes ++ out)
  | _ => some []

def withoutWhitespace (input : List UInt8) : List UInt8 :=
  input.filter fun b => !isAsciiWhitespace b

def base64Decode (input : List UInt8) : Option (List UInt8) :=
  let filtered := withoutWhitespace input
  if filtered.length % 4 ≠ 0 then none else decodeChunks filtered

def hexNibble (c : UInt8) : Option UInt8 :=
  if '0'.toUInt8 ≤ c ∧ c ≤ '9'.toUInt8 then some (c - '0'.toUInt8)
  else if 'a'.toUInt8 ≤ c ∧ c ≤ 'f'.toUInt8 then some (c - 'a'.toUInt8 + 10)
  else if 'A'.toUInt8 ≤ c ∧ c ≤ 'F'.toUInt8 then some (c - 'A'.toUInt8 + 10)
  else none

def isAsciiHexdigit (c : UInt8) : Bool :=
  decide ('0'.toUInt8 ≤ c ∧ c ≤ '9'.toUInt8) || decide ('a'.toUInt8 ≤ c ∧ c ≤ 'f'.toUInt8) ||
    decide ('A'.toUInt8 ≤ c ∧ c ≤ 'F'.toUInt8)

def hexPairs : List UInt8 → Option (List UInt8)
  | c0 :: c1 :: rest => do
      let hi ← hexNibble c0
      let lo ← hexNibble c1
      let out ← hexPairs rest
      some ((hi <<< 4 ||| lo) :: out)
  | _ => some []

def hexDecode (input : List UInt8) : Option (List UInt8) :=
  let filtered := input.filter isAsciiHexdigit
  if filtered.length % 2 ≠ 0 then none else hexPairs filtered

/-! ### The texts -/

def charOf (i : Nat) : UInt8 :=
  if i < 26 then UInt8.ofNat ('A'.toNat + i)
  else if i < 52 then UInt8.ofNat ('a'.toNat + (i - 26))
  else if i < 62 then UInt8.ofNat ('0'.toNat + (i - 52))
  else if i = 62 then '+'.toUInt8
  else '/'.toUInt8

def base64Text : List UInt8 → List UInt8
  | [] => []
  | [x] => [charOf (x.toNat / 4), charOf (x.toNat % 4 * 16), pad, pad]
  | [x, y] =>
    [charOf (x.toNat / 4), charOf (x.toNat % 4 * 16 + y.toNat / 16),
      charOf (y.toNat % 16 * 4), pad]
  | x :: y :: z :: rest =>
    charOf (x.toNat / 4) :: charOf (x.toNat % 4 * 16 + y.toNat / 16) ::
      charOf (y.toNat % 16 * 4 + z.toNat / 64) :: charOf (z.toNat % 64) :: base64Text rest

def hexDigit (upper : Bool) (i : Nat) : UInt8 :=
  if i < 10 then UInt8.ofNat ('0'.toNat + i)
  else if upper then UInt8.ofNat ('A'.toNat + (i - 10))
  else UInt8.ofNat ('a'.toNat + (i - 10))

def hexText (upper : Bool) (bytes : List UInt8) : List UInt8 :=
  bytes.flatMap fun x => [hexDigit upper (x.toNat / 16), hexDigit upper (x.toNat % 16)]

/-- Padding stands at the very end, and there is at most two of it. -/
def PaddedAtEnd (text : List UInt8) : Prop :=
  ∃ body, ∃ k ≤ 2, text = body ++ List.replicate k pad ∧ pad ∉ body

/-- A base64 text as far as its padding goes. -/
def WellPadded (text : List UInt8) : Prop :=
  PaddedAtEnd text ∧ text.length % 4 = 0

/-! ### Round trips -/

variable {i : Nat}

theorem decodeChar_charOf (hi : i < 64) : decodeChar (charOf i) = some (UInt8.ofNat i) := by
  interval_cases i <;> decide

theorem charOf_ne_pad (hi : i < 64) : charOf i ≠ pad := by
  interval_cases i <;> decide

theorem decodeChar_pad : decodeChar pad = some 0 := by
  decide

variable {a b : Nat}

theorem shiftLeft_or_char (hb : b < 64) (k : Nat) :
    a <<< (k + 6) ||| b <<< k = (a * 64 + b) <<< k := by
  have hjoin : a <<< 6 ||| b = a * 64 + b := by
    rw [← shiftLeft_add_eq_or_of_lt hb, shiftLeft_eq]
  rw [add_comm k 6, shiftLeft_add, ← shiftLeft_or_distrib, hjoin]

variable {n : Nat}

theorem toNat_ofNat_char (hn : n < 64) : (UInt8.ofNat n).toNat = n := by
  rw [UInt8.toNat_ofNat', mod_eq_of_lt (by omega)]

variable {c : Nat}

theorem tripleOf_eq {d : Nat} (ha : a < 64) (hb : b < 64) (hc : c < 64) (hd : d < 64) :
    tripleOf (UInt8.ofNat a) (UInt8.ofNat b) (UInt8.ofNat c) (UInt8.ofNat d) =
      ((a * 64 + b) * 64 + c) * 64 + d := by
  have hlast := shiftLeft_or_char (a := (a * 64 + b) * 64 + c) hd 0
  rw [tripleOf, toNat_ofNat_char ha, toNat_ofNat_char hb, toNat_ofNat_char hc, toNat_ofNat_char hd,
    shiftLeft_or_char hb 12, shiftLeft_or_char hc 6]
  rwa [shiftLeft_zero, shiftLeft_zero] at hlast

theorem decodeChunk_chars {d : Nat} (ha : a < 64) (hb : b < 64) (hc : c < 64) (hd : d < 64) :
    decodeChunk (charOf a) (charOf b) (charOf c) (charOf d) =
      some [UInt8.ofNat ((((a * 64 + b) * 64 + c) * 64 + d) >>> 16),
        UInt8.ofNat ((((a * 64 + b) * 64 + c) * 64 + d) >>> 8),
        UInt8.ofNat (((a * 64 + b) * 64 + c) * 64 + d)] := by
  rw [decodeChunk, decodeChar_charOf ha, decodeChar_charOf hb, decodeChar_charOf hc,
    decodeChar_charOf hd]
  simp only [Option.bind_eq_bind, Option.bind_some, tripleOf_eq ha hb hc hd,
    if_pos (charOf_ne_pad hc), if_pos (charOf_ne_pad hd)]
  rfl

theorem decodeChunk_one_pad (ha : a < 64) (hb : b < 64) (hc : c < 64) :
    decodeChunk (charOf a) (charOf b) (charOf c) pad =
      some [UInt8.ofNat ((((a * 64 + b) * 64 + c) * 64) >>> 16),
        UInt8.ofNat ((((a * 64 + b) * 64 + c) * 64) >>> 8)] := by
  have htriple : tripleOf (UInt8.ofNat a) (UInt8.ofNat b) (UInt8.ofNat c) 0 =
      ((a * 64 + b) * 64 + c) * 64 := tripleOf_eq ha hb hc (by decide)
  rw [decodeChunk, decodeChar_charOf ha, decodeChar_charOf hb, decodeChar_charOf hc, decodeChar_pad]
  simp only [Option.bind_eq_bind, Option.bind_some, htriple, if_pos (charOf_ne_pad hc)]
  rfl

theorem decodeChunk_two_pads (ha : a < 64) (hb : b < 64) :
    decodeChunk (charOf a) (charOf b) pad pad =
      some [UInt8.ofNat (((a * 64 + b) * 64 * 64) >>> 16)] := by
  have htriple : tripleOf (UInt8.ofNat a) (UInt8.ofNat b) 0 0 = (a * 64 + b) * 64 * 64 :=
    tripleOf_eq ha hb (by decide) (by decide)
  rw [decodeChunk, decodeChar_charOf ha, decodeChar_charOf hb, decodeChar_pad]
  simp only [Option.bind_eq_bind, Option.bind_some, htriple]
  rfl

theorem ofNat_eq {x : UInt8} (hx : n % 256 = x.toNat) : UInt8.ofNat n = x := by
  rw [← UInt8.toNat_inj, UInt8.toNat_ofNat']
  exact hx

theorem ofNat_shiftRight {k : Nat} {x : UInt8} (hx : n / 2 ^ k % 256 = x.toNat) :
    UInt8.ofNat (n >>> k) = x :=
  ofNat_eq (by rwa [shiftRight_eq_div_pow])

theorem decodeChunks_base64Text (b : List UInt8) : decodeChunks (base64Text b) = some b := by
  induction b using base64Text.induct with
  | case1 => rfl
  | case2 x =>
    have hx := x.toNat_lt
    rw [base64Text, decodeChunks, decodeChunk_two_pads (by omega) (by omega),
      ofNat_shiftRight (x := x) (by omega)]
    rfl
  | case3 x y =>
    have hx := x.toNat_lt
    have hy := y.toNat_lt
    rw [base64Text, decodeChunks, decodeChunk_one_pad (by omega) (by omega) (by omega),
      ofNat_shiftRight (x := x) (by omega), ofNat_shiftRight (x := y) (by omega)]
    rfl
  | case4 x y z rest ih =>
    have hx := x.toNat_lt
    have hy := y.toNat_lt
    have hz := z.toNat_lt
    rw [base64Text, decodeChunks, decodeChunk_chars (by omega) (by omega) (by omega) (by omega),
      ofNat_shiftRight (x := x) (by omega), ofNat_shiftRight (x := y) (by omega),
      ofNat_eq (x := z) (by omega), ih]
    rfl

theorem length_base64Text (b : List UInt8) : (base64Text b).length % 4 = 0 := by
  induction b using base64Text.induct with
  | case1 => rfl
  | case2 x => simp [base64Text]
  | case3 x y => simp [base64Text]
  | case4 x y z rest ih =>
    rw [base64Text]
    simp only [List.length_cons]
    omega

variable {text : List UInt8} (upper : Bool)

theorem base64Decode_text {b : List UInt8} (htext : withoutWhitespace text = base64Text b) :
    base64Decode text = some b := by
  simp only [base64Decode, htext, length_base64Text, ne_eq, not_true, if_false]
  exact decodeChunks_base64Text b

theorem hexNibble_hexDigit (hi : i < 16) :
    hexNibble (hexDigit upper i) = some (UInt8.ofNat i) := by
  cases upper <;> interval_cases i <;> decide

theorem isAsciiHexdigit_hexDigit (hi : i < 16) :
    isAsciiHexdigit (hexDigit upper i) = true := by
  cases upper <;> interval_cases i <;> decide

theorem nibbles_eq (x : UInt8) :
    UInt8.ofNat (x.toNat / 16) <<< 4 ||| UInt8.ofNat (x.toNat % 16) = x := by
  have hx := x.toNat_lt
  have hshift : (x.toNat / 16) <<< 4 ||| x.toNat % 16 = x.toNat := by
    rw [← shiftLeft_add_eq_or_of_lt (mod_lt _ (by decide)), shiftLeft_eq]
    omega
  have hhigh : (x.toNat / 16) <<< 4 < 256 := by
    rw [shiftLeft_eq]
    omega
  rw [← UInt8.toNat_inj, UInt8.toNat_or, UInt8.toNat_shiftLeft, UInt8.toNat_ofNat',
    UInt8.toNat_ofNat', mod_eq_of_lt (show x.toNat / 16 < 2 ^ 8 by omega),
    mod_eq_of_lt (show x.toNat % 16 < 2 ^ 8 by omega)]
  change (x.toNat / 16) <<< 4 % 256 ||| x.toNat % 16 = x.toNat
  rw [mod_eq_of_lt hhigh, hshift]

theorem hexPairs_hexText (b : List UInt8) : hexPairs (hexText upper b) = some b := by
  induction b with
  | nil => rfl
  | cons x b ih =>
    have hx := x.toNat_lt
    have hcons : hexText upper (x :: b) = hexDigit upper (x.toNat / 16) ::
        hexDigit upper (x.toNat % 16) :: hexText upper b := rfl
    rw [hcons, hexPairs, hexNibble_hexDigit upper (by omega), hexNibble_hexDigit upper (by omega),
      ih]
    simp only [Option.bind_eq_bind, Option.bind_some, nibbles_eq]

theorem filter_hexText (b : List UInt8) :
    (hexText upper b).filter isAsciiHexdigit = hexText upper b := by
  apply List.filter_eq_self.mpr
  intro c hc
  obtain ⟨x, -, hx⟩ := List.mem_flatMap.mp hc
  have hlt := x.toNat_lt
  simp only [List.mem_cons, List.not_mem_nil, or_false] at hx
  rcases hx with rfl | rfl
  · exact isAsciiHexdigit_hexDigit upper (by omega)
  · exact isAsciiHexdigit_hexDigit upper (by omega)

theorem length_hexText (b : List UInt8) :
    (hexText upper b).length = 2 * b.length := by
  induction b with
  | nil => rfl
  | cons x b ih =>
    rw [hexText, List.flatMap_cons, List.length_append, List.length_cons, ← hexText, ih]
    simp only [List.length_cons, List.length_nil]
    omega

theorem filter_hexdigit_withoutWhitespace (text : List UInt8) :
    (withoutWhitespace text).filter isAsciiHexdigit = text.filter isAsciiHexdigit := by
  have hdigit (c : UInt8) (hc : isAsciiHexdigit c = true) : isAsciiWhitespace c = false := by
    rw [Bool.eq_false_iff]
    intro hspace
    simp only [isAsciiWhitespace, Bool.or_eq_true, beq_iff_eq, or_assoc] at hspace
    rcases hspace with rfl | rfl | rfl | rfl | rfl <;> exact absurd hc (by decide)
  rw [withoutWhitespace, List.filter_filter]
  apply List.filter_congr
  intro c _
  cases hc : isAsciiHexdigit c with
  | false => rfl
  | true => rw [hdigit c hc]; rfl

theorem hexDecode_text {upper : Bool} {b : List UInt8}
    (htext : withoutWhitespace text = hexText upper b) : hexDecode text = some b := by
  have hfilter : text.filter isAsciiHexdigit = hexText upper b := by
    rw [← filter_hexdigit_withoutWhitespace, htext, filter_hexText]
  have heven : (hexText upper b).length % 2 = 0 := by
    rw [length_hexText]
    omega
  simp only [hexDecode, hfilter, heven, ne_eq, not_true, if_false]
  exact hexPairs_hexText upper b

/-! ### What is accepted -/

theorem decodeChunk_isSome (c0 c1 c2 c3 : UInt8) : (decodeChunk c0 c1 c2 c3).isSome = true ↔
    ∀ c ∈ [c0, c1, c2, c3], (decodeChar c).isSome = true := by
  simp only [List.mem_cons, List.not_mem_nil, or_false, forall_eq_or_imp, forall_eq]
  rw [decodeChunk]
  cases decodeChar c0 <;> cases decodeChar c1 <;> cases decodeChar c2 <;> cases decodeChar c3 <;>
    simp

theorem decodeChunks_isSome (hlen : text.length % 4 = 0) :
    (decodeChunks text).isSome = true ↔ ∀ c ∈ text, (decodeChar c).isSome = true := by
  induction text using decodeChunks.induct with
  | case1 c0 c1 c2 c3 rest ih =>
    have hrec := ih (by simp only [List.length_cons] at hlen; omega)
    have hchunk := decodeChunk_isSome c0 c1 c2 c3
    have hsplit : (decodeChunks (c0 :: c1 :: c2 :: c3 :: rest)).isSome = true ↔
        (decodeChunk c0 c1 c2 c3).isSome = true ∧ (decodeChunks rest).isSome = true := by
      rw [decodeChunks]
      cases decodeChunk c0 c1 c2 c3 <;> cases decodeChunks rest <;> simp
    rw [hsplit, hchunk, hrec, ← List.forall_mem_append]
    rfl
  | case2 text hshort =>
    have hnil : text = [] := by
      match text, hshort, hlen with
      | [], _, _ => rfl
      | c0 :: c1 :: c2 :: c3 :: rest, hshort, _ => exact absurd rfl (hshort c0 c1 c2 c3 rest)
    subst hnil
    exact iff_of_true rfl (by simp)

theorem wellPadded_of_isSome_iff (input : List UInt8) :
    ((base64Decode input).isSome = true → WellPadded (withoutWhitespace input)) ↔
      (∃ c ∈ withoutWhitespace input, decodeChar c = none) ∨
        (withoutWhitespace input).length % 4 ≠ 0 ∨ PaddedAtEnd (withoutWhitespace input) := by
  have hdecode : base64Decode input = if (withoutWhitespace input).length % 4 ≠ 0 then none
      else decodeChunks (withoutWhitespace input) := rfl
  by_cases hlen : (withoutWhitespace input).length % 4 = 0
  · rw [hdecode, if_neg (not_not.mpr hlen), decodeChunks_isSome hlen, WellPadded]
    constructor
    · intro himp
      by_cases hall : ∀ c ∈ withoutWhitespace input, (decodeChar c).isSome = true
      · exact Or.inr (Or.inr (himp hall).1)
      · left
        obtain ⟨c, hc⟩ := not_forall.mp hall
        obtain ⟨hmem, hnone⟩ := Classical.not_imp.mp hc
        exact ⟨c, hmem, by simpa using hnone⟩
    · rintro (⟨c, hc, hnone⟩ | hne | hpadded) hall
      · have hsome := hall c hc
        rw [hnone] at hsome
        exact absurd hsome (by decide)
      · exact absurd hlen hne
      · exact ⟨hpadded, hlen⟩
  · rw [hdecode, if_pos hlen]
    exact iff_of_true (fun h => absurd h (by decide)) (Or.inr (Or.inl hlen))

/-- Both decoders invert their encodings with whitespace anywhere, and a base64 text with padding
out of place is accepted unless something else is wrong with it. -/
theorem codecs (b base64 hex input : List UInt8) (upper : Bool) :
    (withoutWhitespace base64 = base64Text b → base64Decode base64 = some b) ∧
    (withoutWhitespace hex = hexText upper b → hexDecode hex = some b) ∧
    (((base64Decode input).isSome = true → WellPadded (withoutWhitespace input)) ↔
      (∃ c ∈ withoutWhitespace input, decodeChar c = none) ∨
        (withoutWhitespace input).length % 4 ≠ 0 ∨ PaddedAtEnd (withoutWhitespace input)) :=
  ⟨base64Decode_text, hexDecode_text, wellPadded_of_isSome_iff input⟩

/-- `=AAA` is accepted. -/
theorem accepts_leading_pad : base64Decode [61, 65, 65, 65] = some [0, 0, 0] ∧
      ¬ WellPadded (withoutWhitespace [61, 65, 65, 65]) := by
  refine ⟨by decide, fun hpadded => ?_⟩
  obtain ⟨⟨body, k, hk, htext, hbody⟩, -⟩ := hpadded
  have hplain : withoutWhitespace [61, 65, 65, 65] = [61, 65, 65, 65] := by decide
  rw [hplain] at htext
  cases k with
  | zero =>
    rw [List.replicate_zero, List.append_nil] at htext
    exact hbody (htext ▸ List.mem_cons_self)
  | succ k =>
    have hlast := congrArg List.getLast? htext
    rw [List.replicate_succ', ← List.append_assoc, List.getLast?_concat] at hlast
    exact absurd hlast (by decide)

end Mwemu.Api.Crypt32
