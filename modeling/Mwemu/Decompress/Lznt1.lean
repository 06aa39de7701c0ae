import Mwemu.Decompress.Bytes

/-!
# LZNT1

`lznt1_decompress` runs three nested loops: over the chunks, over the groups of eight tokens of a
chunk, and over the tokens of a group. Each has its invariant below; none needs a condition on the
input.
-/

namespace Mwemu.Decompress

open Mwemu.Lib

/-- The width of a tag's length field, which shrinks as the chunk's output grows. -/
def lznt1Shift (curPos : Nat) : Nat :=
  if curPos ≤ 0x10 then 12
  else if curPos ≤ 0x20 then 11
  else if curPos ≤ 0x40 then 10
  else if curPos ≤ 0x80 then 9
  else if curPos ≤ 0x100 then 8
  else if curPos ≤ 0x200 then 7
  else if curPos ≤ 0x400 then 6
  else if curPos ≤ 0x800 then 5
  else 4

def lznt1Token (input : List UInt8) (maxOutput chunkEnd chunkStartOut flags bit : Nat)
    (s : Cursor) : Except Fault (LoopStep Cursor (Option (List UInt8))) :=
  if chunkEnd ≤ s.pos ∨ maxOutput ≤ s.out.length then pure (.leave s)
  else if (flags >>> bit) &&& 1 = 0 then do
    let b ← getByte input s.pos
    let out ← push s.out b
    let pos ← addW 64 s.pos 1
    pure (.next { pos, out })
  else do
    let stop ← addW 64 s.pos 2
    if input.length < stop then pure (.ret none)
    else do
      let tag ← readU16Le input s.pos
      let pos ← addW 64 s.pos 2
      let curPos ← subW s.out.length chunkStartOut
      let shift := lznt1Shift curPos
      let lenMask ← subW (1 <<< shift) 1
      let length ← addW 16 (tag &&& lenMask) 3
      let offset ← addW 16 (tag >>> shift) 1
      let behind ← subW s.out.length chunkStartOut
      if behind < offset then pure (.ret none)
      else do
        let out ← copyMatch maxOutput offset (fun _ => 0) length s.out
        pure (.next { pos, out })

def lznt1Group (input : List UInt8) (maxOutput chunkEnd chunkStartOut : Nat) (s : Cursor) :
    Except Fault (LoopStep Cursor (Option (List UInt8))) :=
  if input.length ≤ s.pos then pure (.ret none)
  else do
    let flags ← getByte input s.pos
    let pos ← addW 64 s.pos 1
    let token := lznt1Token input maxOutput chunkEnd chunkStartOut flags.toNat
    match ← forRange token 0 8 { s with pos } with
    | .inl s' => pure (.next s')
    | .inr r => pure (.ret r)

/-- The body of the loop over the chunks, its condition `pos + 2 <= input.len()` included. -/
def lznt1Chunk (input : List UInt8) (maxOutput : Nat) (s : Cursor) :
    Except Fault (LoopStep Cursor (Option (List UInt8))) := do
  let stop ← addW 64 s.pos 2
  if input.length < stop then pure (.leave s)
  else do
    let header ← readU16Le input s.pos
    let pos ← addW 64 s.pos 2
    if header = 0 then pure (.leave { s with pos })
    else do
      let chunkLen ← addW 64 (header &&& 0x0FFF) 1
      let chunkEnd ← addW 64 pos chunkLen
      if input.length < chunkEnd then pure (.ret none)
      else if header &&& 0x8000 = 0 then do
        let total ← addW 64 s.out.length chunkLen
        if maxOutput < total then pure (.ret none)
        else do
          let bytes ← getSlice input pos chunkEnd
          let out ← extendFromSlice s.out bytes
          pure (.next { pos := chunkEnd, out })
      else do
        let open' (t : Cursor) := decide (t.pos < chunkEnd) && decide (t.out.length < maxOutput)
        let group := lznt1Group input maxOutput chunkEnd s.out.length
        match ← whileLoop .outOfFuel open' group (input.length + 1) { s with pos } with
        | .inl t => pure (.next { pos := chunkEnd, out := t.out })
        | .inr r => pure (.ret r)

def lznt1Decompress (input : List UInt8) (maxOutput : Nat) : Except Fault (Option (List UInt8)) :=
  if input.isEmpty then pure none
  else do
    let chunk := lznt1Chunk input maxOutput
    let start : Cursor := { pos := 0, out := [] }
    match ← whileLoop .outOfFuel (fun _ => true) chunk (input.length + 1) start with
    | .inl s => pure (some s.out)
    | .inr r => pure r

/-! ### Safety -/

theorem lznt1Shift_bounds (curPos : Nat) : 4 ≤ lznt1Shift curPos ∧ lznt1Shift curPos ≤ 12 := by
  rw [lznt1Shift]
  repeat' split
  all_goals omega

theorem lznt1_tag_fields {tag : Nat} (htag : tag < 2 ^ 16) (curPos : Nat) :
    1 ≤ 1 <<< lznt1Shift curPos ∧ tag &&& (1 <<< lznt1Shift curPos - 1) < 2 ^ 12 ∧
      tag >>> lznt1Shift curPos < 2 ^ 12 := by
  obtain ⟨hlow, hhigh⟩ := lznt1Shift_bounds curPos
  generalize lznt1Shift curPos = shift at hlow hhigh
  have hpos : 0 < 2 ^ shift := Nat.two_pow_pos shift
  rw [Nat.one_shiftLeft, Nat.shiftRight_eq_div_pow]
  refine ⟨hpos, ?_, ?_⟩
  · have hmask : tag &&& (2 ^ shift - 1) ≤ 2 ^ shift - 1 := Nat.and_le_right
    have hpow : 2 ^ shift ≤ 2 ^ 12 := Nat.pow_le_pow_right (by decide) hhigh
    omega
  · rw [Nat.div_lt_iff_lt_mul hpos]
    have hpow : 2 ^ 4 ≤ 2 ^ shift := Nat.pow_le_pow_right (by decide) hlow
    omega

section Safety

variable {input : List UInt8} {maxOutput chunkEnd : Nat}

variable {s : Cursor}

theorem meets_lznt1Token {chunkStartOut flags bit : Nat} (hinput : input.length ≤ isizeMax)
    (hend : chunkEnd ≤ input.length) (hs : InBounds input maxOutput s)
    (hstart : chunkStartOut ≤ s.out.length) : Meets (Tolerated maxOutput)
      (lznt1Token input maxOutput chunkEnd chunkStartOut flags bit s) (LoopStep.Ends
        (fun t => InBounds input maxOutput t ∧ s.pos ≤ t.pos ∧ s.out.length ≤ t.out.length)
        (fun t => t = s) (· = none)) := by
  have hisize : isizeMax < 2 ^ 63 := by decide
  have hpos := hs.pos
  have hcap := hs.fits.capacity
  rw [lznt1Token]
  split
  · exact Meets.pure rfl
  next hgo =>
    split
    · refine (meets_getByte (by omega)).bind fun b _ => ?_
      refine (meets_push (by omega) hcap).bind fun out hout => ?_
      refine (meets_addW (by omega)).next ?_
      exact Meets.pure ⟨⟨by simp; omega, ⟨by simp; omega, hout.2⟩⟩, by simp, by simp; omega⟩
    refine (meets_addW (by omega)).next ?_
    split
    · exact Meets.pure rfl
    refine (meets_readU16Le (by omega)).bind fun tag htag => ?_
    refine (meets_addW (by omega)).next ?_
    refine (meets_subW hstart).next ?_
    obtain ⟨hmask, hlen, hoff⟩ := lznt1_tag_fields htag (s.out.length - chunkStartOut)
    refine (meets_subW hmask).next ?_
    refine (meets_addW (by omega)).next ?_
    refine (meets_addW (by omega)).next ?_
    refine (meets_subW hstart).next ?_
    split
    · exact Meets.pure rfl
    refine (meets_copyMatch (Nat.le_refl _) (by omega) (fun _ => Nat.succ_pos _) (by omega)
      (by omega) hcap).bind fun out hout => ?_
    exact Meets.pure ⟨⟨by simp; omega, hout.1⟩, by simp, by simp; omega⟩

theorem meets_lznt1Group {chunkStartOut : Nat} (hinput : input.length ≤ isizeMax)
    (hend : chunkEnd ≤ input.length) (hs : InBounds input maxOutput s)
    (hstart : chunkStartOut ≤ s.out.length) :
    Meets (Tolerated maxOutput) (lznt1Group input maxOutput chunkEnd chunkStartOut s) (LoopStep.Ends
        (fun t => (InBounds input maxOutput t ∧ chunkStartOut ≤ t.out.length) ∧
          input.length - t.pos < input.length - s.pos) (fun _ => False) (· = none)) := by
  have hisize : isizeMax < 2 ^ 63 := by decide
  rw [lznt1Group]
  split
  · exact Meets.pure rfl
  refine (meets_getByte (by omega)).bind fun flags _ => ?_
  refine (meets_addW (by omega)).next ?_
  let inv (t : Cursor) : Prop :=
    InBounds input maxOutput t ∧ chunkStartOut ≤ t.out.length ∧ s.pos < t.pos
  refine Meets.seq (Sum.elim inv (· = none)) ?_ ?_
  · refine meets_forRange (fun _ => inv) ⟨⟨by simp; omega, hs.fits⟩, hstart, by simp⟩
      (fun _ ht => ht) ?_
    rintro i t - - ⟨ht, hstart', hpos⟩
    refine (meets_lznt1Token hinput hend ht hstart').mono ?_
    rintro (u | u | r) hflow
    · exact ⟨hflow.1, by have := hflow.2.2; omega, by have := hflow.2.1; omega⟩
    · exact hflow ▸ ⟨ht, hstart', hpos⟩
    · exact hflow
  · rintro (t | r) hend'
    · exact Meets.pure ⟨⟨hend'.1, hend'.2.1⟩, by have := hend'.2.2; omega⟩
    · exact Meets.pure hend'

theorem meets_lznt1Chunk (hinput : input.length ≤ isizeMax) (hs : InBounds input maxOutput s) :
    Meets (Tolerated maxOutput) (lznt1Chunk input maxOutput s) (LoopStep.Ends
        (fun t => InBounds input maxOutput t ∧ input.length - t.pos < input.length - s.pos)
        (fun t => Fits maxOutput t.out) (· = none)) := by
  have hisize : isizeMax < 2 ^ 63 := by decide
  have hpos := hs.pos
  have hcap := hs.fits.capacity
  rw [lznt1Chunk]
  refine (meets_addW (by omega)).next ?_
  split
  · exact Meets.pure hs.fits
  refine (meets_readU16Le (by omega)).bind fun header _ => ?_
  refine (meets_addW (by omega)).next ?_
  split
  · exact Meets.pure hs.fits
  have hlen : header &&& 0x0FFF ≤ 0x0FFF := Nat.and_le_right
  refine (meets_addW (by omega)).next ?_
  refine (meets_addW (by omega)).next ?_
  split
  · exact Meets.pure rfl
  split
  · refine (meets_addW (by omega)).next ?_
    split
    · exact Meets.pure rfl
    refine (meets_getSlice (by omega) (by omega)).bind fun bytes hbytes => ?_
    refine (meets_extendFromSlice (by omega)).bind fun out hout => ?_
    exact Meets.pure ⟨⟨by simp; omega, hout⟩, by simp; omega⟩
  refine Meets.seq (Sum.elim (fun t => Fits maxOutput t.out) (· = none)) ?_ ?_
  · refine meets_whileLoop (fun t => input.length - t.pos)
      (fun t => InBounds input maxOutput t ∧ s.out.length ≤ t.out.length)
      ⟨⟨by simp; omega, hs.fits⟩, Nat.le_refl _⟩ (by omega) (fun t ht _ => ht.1.fits) ?_
    intro t _ ht _
    refine (meets_lznt1Group hinput (by omega) ht.1 ht.2).mono ?_
    rintro (u | u | r) hflow
    · exact hflow
    · exact hflow.elim
    · exact hflow
  · rintro (t | r) hresult
    · exact Meets.pure ⟨⟨by simp; omega, hresult⟩, by simp; omega⟩
    · exact Meets.pure hresult

theorem lznt1Decompress_safe (input : Slice) (maxOutput : Nat) :
    Safe maxOutput (lznt1Decompress input.1 maxOutput) := by
  rw [Safe, lznt1Decompress]
  split
  · exact Meets.pure returnable_none
  refine Meets.seq (Sum.elim (fun t => Fits maxOutput t.out) (· = none)) ?_ ?_
  · exact meets_whileLoop (fun t => input.1.length - t.pos)
      (InBounds input.1 maxOutput) ⟨Nat.zero_le _, ⟨Nat.zero_le _, Nat.zero_le _⟩⟩
      (by simp) (by simp) fun t _ ht _ => meets_lznt1Chunk input.2 ht
  · rintro (t | r) hresult
    · exact Meets.pure (returnable_some hresult.limit)
    · have hnone : r = none := hresult
      exact Meets.pure (hnone ▸ returnable_none)

end Safety

end Mwemu.Decompress
