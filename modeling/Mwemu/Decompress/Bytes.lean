import Mwemu.Lib.Checked

/-!
# The checked operations of the decompressors

Every index, subtraction and addition of the three decompressors, with the fault it raises when it
leaves its range, and the two pieces they share: copying a match and reading an escaped length.
-/

namespace Mwemu.Decompress

open Mwemu.Lib

inductive Fault where
  /-- an index outside the input -/
  | indexOutOfBounds
  /-- a back-reference before the start of the output -/
  | backReference
  | underflow
  | overflow
  /-- a `Vec` longer than `isize::MAX` -/
  | capacityOverflow
  | outOfFuel
  deriving DecidableEq, Repr

def isizeMax : Nat := 2 ^ 63 - 1

/-- A byte slice: the language bounds its length by `isize::MAX`. -/
abbrev Slice := { data : List UInt8 // data.length ≤ isizeMax }

/-- A decompressor between two tokens: the input cursor and the output so far. -/
structure Cursor where
  pos : Nat
  out : List UInt8
  deriving DecidableEq, Repr

def getByte (data : List UInt8) (i : Nat) : Except Fault UInt8 :=
  match data[i]? with
  | some b => .ok b
  | none => .error .indexOutOfBounds

def getOut (out : List UInt8) (i : Nat) : Except Fault UInt8 :=
  match out[i]? with
  | some b => .ok b
  | none => .error .backReference

def getSlice (data : List UInt8) (start stop : Nat) : Except Fault (List UInt8) :=
  if start ≤ stop ∧ stop ≤ data.length then .ok ((data.drop start).take (stop - start))
  else .error .indexOutOfBounds

def readU16Le (data : List UInt8) (i : Nat) : Except Fault Nat := do
  let b0 ← getByte data i
  let b1 ← getByte data (i + 1)
  pure (b0.toNat + 2 ^ 8 * b1.toNat)

def readU32Le (data : List UInt8) (i : Nat) : Except Fault Nat := do
  let lo ← readU16Le data i
  let hi ← readU16Le data (i + 2)
  pure (lo + 2 ^ 16 * hi)

@[irreducible] def addW (w a b : Nat) : Except Fault Nat :=
  if a + b < 2 ^ w then .ok (a + b) else .error .overflow

def subW (a b : Nat) : Except Fault Nat :=
  if b ≤ a then .ok (a - b) else .error .underflow

def shlW (w a k : Nat) : Except Fault Nat :=
  if a <<< k < 2 ^ w then .ok (a <<< k) else .error .overflow

def shrW (w a k : Nat) : Except Fault Nat :=
  if k < w then .ok (a >>> k) else .error .overflow

def push (out : List UInt8) (b : UInt8) : Except Fault (List UInt8) :=
  if out.length < isizeMax then .ok (out ++ [b]) else .error .capacityOverflow

def extendFromSlice (out bytes : List UInt8) : Except Fault (List UInt8) :=
  if out.length + bytes.length ≤ isizeMax then .ok (out ++ bytes) else .error .capacityOverflow

/-- The copy loop of a match: `length` bytes from `offset` behind the growing end, `ahead i` further
on in pass `i`. -/
def copyMatch (limit offset : Nat) (ahead : Nat → Nat) (length : Nat) (out : List UInt8) :
    Except Fault (List UInt8) := do
  let body (i : Nat) (out : List UInt8) : Except Fault (LoopStep (List UInt8) Empty) :=
    if limit ≤ out.length then pure (.leave out)
    else do
      let src ← subW out.length offset
      let idx ← addW 64 src (ahead i)
      let b ← getOut out idx
      let out ← push out b
      pure (.next out)
  let result ← forRange body 0 length out
  pure (result.elim id Empty.elim)

/-- The length of a match and the cursor after it, `none` when the input ends inside the escape: a
length equal to `escape` continues in a byte, then in a word, then in a double word. -/
def matchLength (data : List UInt8) (escape length pos : Nat) :
    Except Fault (Option (Nat × Nat)) :=
  if length = escape then
    if data.length ≤ pos then pure none
    else do
      let extra ← getByte data pos
      let pos ← addW 64 pos 1
      if extra.toNat = 255 then do
        let stop ← addW 64 pos 2
        if data.length < stop then pure none
        else do
          let len16 ← readU16Le data pos
          let pos ← addW 64 pos 2
          if len16 = 0 then do
            let stop ← addW 64 pos 4
            if data.length < stop then pure none
            else do
              let length ← readU32Le data pos
              let pos ← addW 64 pos 4
              pure (some (length, pos))
          else pure (some (len16, pos))
      else do
        let length ← addW 64 extra.toNat escape
        pure (some (length, pos))
  else pure (some (length, pos))

/-! ### What each operation ends with -/

/-- The only fault a decompressor may end with: an output too long for any `Vec`, which takes a
`max_output` above `isize::MAX`. -/
def Tolerated (maxOutput : Nat) (fault : Fault) : Prop :=
  fault = .capacityOverflow ∧ isizeMax < maxOutput

/-- An error value, or at most `maxOutput` bytes. -/
def Returnable (maxOutput : Nat) (output : Option (List UInt8)) : Prop :=
  ∀ out, output = some out → out.length ≤ maxOutput

def Safe (maxOutput : Nat) (result : Except Fault (Option (List UInt8))) : Prop :=
  Meets (Tolerated maxOutput) result (Returnable maxOutput)

structure Fits (limit : Nat) (out : List UInt8) : Prop where
  limit : out.length ≤ limit
  capacity : out.length ≤ isizeMax

/-- The cursor lies in the input and the output is within its limits. -/
structure InBounds (input : List UInt8) (maxOutput : Nat) (s : Cursor) : Prop where
  pos : s.pos ≤ input.length
  fits : Fits maxOutput s.out

section Operations

variable {allowed : Fault → Prop} {data out : List UInt8} {i a b w maxOutput : Nat}

theorem returnable_some (hlimit : out.length ≤ maxOutput) : Returnable maxOutput (some out) := by
  rintro _ ⟨⟩
  exact hlimit

theorem returnable_none : Returnable maxOutput none := by
  rintro _ ⟨⟩

theorem meets_addW (hlt : a + b < 2 ^ w) : Meets allowed (addW w a b) (· = a + b) := by
  rw [addW, if_pos hlt]
  exact Meets.of_eq_ok rfl rfl

theorem meets_subW (hle : b ≤ a) : Meets allowed (subW a b) (· = a - b) :=
  Meets.of_eq_ok (if_pos hle) rfl

theorem meets_shlW {k : Nat} (hlt : a <<< k < 2 ^ w) : Meets allowed (shlW w a k) (· = a <<< k) :=
  Meets.of_eq_ok (if_pos hlt) rfl

theorem meets_shrW {k : Nat} (hk : k < w) : Meets allowed (shrW w a k) (· = a >>> k) :=
  Meets.of_eq_ok (if_pos hk) rfl

theorem meets_getByte (hi : i < data.length) : Meets allowed (getByte data i) (· = data[i]) := by
  rw [getByte, List.getElem?_eq_getElem hi]
  exact Meets.of_eq_ok rfl rfl

theorem meets_getOut (hi : i < out.length) : Meets allowed (getOut out i) (· = out[i]) := by
  rw [getOut, List.getElem?_eq_getElem hi]
  exact Meets.of_eq_ok rfl rfl

theorem meets_getSlice {start stop : Nat} (hle : start ≤ stop) (hstop : stop ≤ data.length) :
    Meets allowed (getSlice data start stop) (fun bytes => bytes.length = stop - start) := by
  rw [getSlice, if_pos ⟨hle, hstop⟩]
  refine Meets.of_eq_ok rfl ?_
  rw [List.length_take, List.length_drop]
  omega

theorem meets_readU16Le (hi : i + 2 ≤ data.length) :
    Meets allowed (readU16Le data i) (· < 2 ^ 16) := by
  refine (meets_getByte (by omega)).bind fun b0 _ => ?_
  refine (meets_getByte (by omega)).bind fun b1 _ => ?_
  have h0 := b0.toNat_lt
  have h1 := b1.toNat_lt
  refine Meets.pure ?_
  omega

theorem meets_readU32Le (hi : i + 4 ≤ data.length) :
    Meets allowed (readU32Le data i) (· < 2 ^ 32) := by
  refine (meets_readU16Le (by omega)).bind fun lo hlo => ?_
  refine (meets_readU16Le (by omega)).bind fun hi hhi => ?_
  refine Meets.pure ?_
  omega

theorem meets_push {b : UInt8} (hlt : out.length < maxOutput) (hcap : out.length ≤ isizeMax) :
    Meets (Tolerated maxOutput) (push out b)
      (fun out' => out'.length = out.length + 1 ∧ out'.length ≤ isizeMax) := by
  rw [push]
  split
  · refine Meets.of_eq_ok rfl ⟨by simp, ?_⟩
    simp only [List.length_append, List.length_singleton]
    omega
  · exact ⟨rfl, by omega⟩

theorem meets_extendFromSlice {bytes : List UInt8} (hle : out.length + bytes.length ≤ maxOutput) :
    Meets (Tolerated maxOutput) (extendFromSlice out bytes) (Fits maxOutput) := by
  rw [extendFromSlice]
  split
  · next hcap =>
    have hlen : (out ++ bytes).length = out.length + bytes.length := List.length_append
    exact Meets.of_eq_ok rfl ⟨by omega, by omega⟩
  · exact ⟨rfl, by omega⟩

theorem meets_copyMatch {limit offset length : Nat} {ahead : Nat → Nat}
    (hlimit : limit ≤ maxOutput) (hoffset : offset ≤ out.length) (hahead : ∀ i, ahead i < offset)
    (hlength : 0 < length) (hroom : out.length < limit) (hcap : out.length ≤ isizeMax) :
    Meets (Tolerated maxOutput) (copyMatch limit offset ahead length out)
      (fun out' => Fits limit out' ∧ out.length < out'.length) := by
  have hisize : isizeMax < 2 ^ 63 := by decide
  rw [copyMatch]
  refine Meets.seq (Sum.elim (fun out' => Fits limit out' ∧ out.length < out'.length)
    fun _ => False) ?_ ?_
  · refine meets_forRange (fun i out' => Fits limit out' ∧ out'.length = out.length + i)
      ⟨⟨by omega, hcap⟩, rfl⟩ (fun out' hout' => ⟨hout'.1, by omega⟩) ?_
    intro i out' _ _ hout'
    obtain ⟨hfits, hlen⟩ := hout'
    have hcap' := hfits.capacity
    split
    · exact Meets.pure ⟨hfits, by omega⟩
    have hahead' := hahead i
    refine (meets_subW (by omega)).next ?_
    refine (meets_addW (by omega)).next ?_
    refine (meets_getOut (by omega)).bind fun b _ => ?_
    refine (meets_push (by omega) hfits.capacity).bind fun out'' hout'' => ?_
    exact Meets.pure ⟨⟨by omega, hout''.2⟩, by omega⟩
  · intro result hresult
    cases result with
    | inl out' => exact Meets.pure hresult
    | inr e => exact e.elim

theorem meets_matchLength {escape length pos : Nat} (hdata : data.length ≤ isizeMax)
    (hescape : escape ≤ 15) (hlength : length ≤ 15) (hpos : pos ≤ data.length) :
    Meets allowed (matchLength data escape length pos)
      (fun result => ∀ length' pos', result = some (length', pos') →
        length' < 2 ^ 32 ∧ pos ≤ pos' ∧ pos' ≤ data.length) := by
  have hisize : isizeMax < 2 ^ 63 := by decide
  rw [matchLength]
  split
  case isFalse => exact Meets.pure (by grind)
  case isTrue =>
    split
    · exact Meets.pure (by simp)
    refine (meets_getByte (by omega)).bind fun extra _ => ?_
    have hextra := extra.toNat_lt
    refine (meets_addW (by omega)).next ?_
    split
    case isFalse =>
      refine (meets_addW (by omega)).next ?_
      exact Meets.pure (by grind)
    case isTrue =>
      refine (meets_addW (by omega)).next ?_
      split
      · exact Meets.pure (by simp)
      refine (meets_readU16Le (by omega)).bind fun len16 hlen16 => ?_
      refine (meets_addW (by omega)).next ?_
      split
      case isFalse => exact Meets.pure (by grind)
      case isTrue =>
        refine (meets_addW (by omega)).next ?_
        split
        · exact Meets.pure (by simp)
        refine (meets_readU32Le (by omega)).bind fun len32 hlen32 => ?_
        refine (meets_addW (by omega)).next ?_
        exact Meets.pure (by grind)

end Operations

end Mwemu.Decompress
