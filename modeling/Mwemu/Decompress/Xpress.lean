import Mwemu.Decompress.Bytes

/-!
# Xpress without entropy coding

`xpress_decompress` reads a 32-bit indicator and then up to 32 tokens, a literal byte or a match
with an escaped length. It returns what it has when the input ends inside a token.
-/

namespace Mwemu.Decompress

open Mwemu.Lib

def xpressToken (input : List UInt8) (maxOutput indicator bitIdx : Nat) (s : Cursor) :
    Except Fault (LoopStep Cursor (Option (List UInt8))) :=
  if input.length ≤ s.pos ∨ maxOutput ≤ s.out.length then pure (.leave s)
  else if (indicator >>> bitIdx) &&& 1 = 0 then do
    let b ← getByte input s.pos
    let out ← push s.out b
    let pos ← addW 64 s.pos 1
    pure (.next { pos, out })
  else do
    let stop ← addW 64 s.pos 2
    if input.length < stop then pure (.ret (some s.out))
    else do
      let hint ← readU16Le input s.pos
      let pos ← addW 64 s.pos 2
      let offset ← addW 64 (hint >>> 3) 1
      match ← matchLength input 7 (hint &&& 7) pos with
      | none => pure (.ret (some s.out))
      | some (length, pos) => do
          let length ← addW 64 length 3
          if s.out.length < offset then pure (.ret none)
          else do
            let out ← copyMatch maxOutput offset (fun i => i % offset) length s.out
            pure (.next { pos, out })

def xpressGroup (input : List UInt8) (maxOutput : Nat) (s : Cursor) :
    Except Fault (LoopStep Cursor (Option (List UInt8))) := do
  let stop ← addW 64 s.pos 4
  if input.length < stop then pure (.leave s)
  else do
    let indicator ← readU32Le input s.pos
    let pos ← addW 64 s.pos 4
    match ← forRange (xpressToken input maxOutput indicator) 0 32 { s with pos } with
    | .inl s' => pure (.next s')
    | .inr r => pure (.ret r)

def xpressDecompress (input : List UInt8) (maxOutput : Nat) : Except Fault (Option (List UInt8)) :=
  if input.length < 4 then pure none
  else do
    let more (s : Cursor) := decide (s.pos < input.length) && decide (s.out.length < maxOutput)
    let start : Cursor := { pos := 0, out := [] }
    match ← whileLoop .outOfFuel more (xpressGroup input maxOutput) (input.length + 1) start with
    | .inl s => pure (some s.out)
    | .inr r => pure r

/-! ### Safety -/

section Safety

variable {input : List UInt8} {maxOutput : Nat}

theorem meets_xpressToken {indicator bitIdx : Nat} {s : Cursor} (hinput : input.length ≤ isizeMax)
    (hs : InBounds input maxOutput s) :
    Meets (Tolerated maxOutput) (xpressToken input maxOutput indicator bitIdx s)
      (LoopStep.Ends (fun t => InBounds input maxOutput t ∧ s.pos ≤ t.pos) (fun t => t = s)
        (Returnable maxOutput)) := by
  have hisize : isizeMax < 2 ^ 63 := by decide
  have hpos := hs.pos
  have hcap := hs.fits.capacity
  rw [xpressToken]
  split
  · exact Meets.pure rfl
  next hgo =>
    split
    · refine (meets_getByte (by omega)).bind fun b _ => ?_
      refine (meets_push (by omega) hcap).bind fun out hout => ?_
      refine (meets_addW (by omega)).next ?_
      exact Meets.pure ⟨⟨by simp; omega, ⟨by simp; omega, hout.2⟩⟩, by simp⟩
    refine (meets_addW (by omega)).next ?_
    split
    · exact Meets.pure (returnable_some hs.fits.limit)
    refine (meets_readU16Le (by omega)).bind fun hint hhint => ?_
    refine (meets_addW (by omega)).next ?_
    have hoffset : hint >>> 3 ≤ hint := Nat.shiftRight_le hint 3
    refine (meets_addW (by omega)).next ?_
    have hlength : hint &&& 7 ≤ 7 := Nat.and_le_right
    refine (meets_matchLength hinput (by decide) (by omega) (by omega)).bind fun result hres => ?_
    rcases result with _ | ⟨length, pos⟩
    · exact Meets.pure (returnable_some hs.fits.limit)
    obtain ⟨hlen, hpos', hpos''⟩ := hres length pos rfl
    refine (meets_addW (by omega)).next ?_
    split
    · exact Meets.pure returnable_none
    refine (meets_copyMatch (Nat.le_refl _) (by omega) (fun i => Nat.mod_lt i (Nat.succ_pos _))
      (by omega) (by omega) hcap).bind fun out hout => ?_
    exact Meets.pure ⟨⟨hpos'', hout.1⟩, by simp; omega⟩

theorem meets_xpressGroup {s : Cursor} (hinput : input.length ≤ isizeMax)
    (hs : InBounds input maxOutput s) : Meets (Tolerated maxOutput) (xpressGroup input maxOutput s)
      (LoopStep.Ends
        (fun t => InBounds input maxOutput t ∧ input.length - t.pos < input.length - s.pos)
        (fun t => Fits maxOutput t.out) (Returnable maxOutput)) := by
  have hisize : isizeMax < 2 ^ 63 := by decide
  have hpos := hs.pos
  rw [xpressGroup]
  refine (meets_addW (by omega)).next ?_
  split
  · exact Meets.pure hs.fits
  refine (meets_readU32Le (by omega)).bind fun indicator _ => ?_
  refine (meets_addW (by omega)).next ?_
  let inv (t : Cursor) : Prop := InBounds input maxOutput t ∧ s.pos < t.pos
  refine Meets.seq (Sum.elim inv (Returnable maxOutput)) ?_ ?_
  · refine meets_forRange (fun _ => inv) ⟨⟨by simp; omega, hs.fits⟩, by simp⟩ (fun _ ht => ht) ?_
    rintro i t - - ⟨ht, hpos'⟩
    refine (meets_xpressToken hinput ht).mono ?_
    rintro (u | u | r) hflow
    · exact ⟨hflow.1, by have := hflow.2; omega⟩
    · exact hflow ▸ ⟨ht, hpos'⟩
    · exact hflow
  · rintro (t | r) hresult
    · exact Meets.pure ⟨hresult.1, by have := hresult.2; omega⟩
    · exact Meets.pure hresult

theorem xpressDecompress_safe (input : Slice) (maxOutput : Nat) :
    Safe maxOutput (xpressDecompress input.1 maxOutput) := by
  rw [Safe, xpressDecompress]
  split
  · exact Meets.pure returnable_none
  refine Meets.seq (Sum.elim (fun t => Fits maxOutput t.out) (Returnable maxOutput)) ?_ ?_
  · exact meets_whileLoop (fun t => input.1.length - t.pos)
      (InBounds input.1 maxOutput) ⟨Nat.zero_le _, ⟨Nat.zero_le _, Nat.zero_le _⟩⟩
      (by simp) (fun t ht _ => ht.fits) fun t _ ht _ => meets_xpressGroup input.2 ht
  · rintro (t | r) hresult
    · exact Meets.pure (returnable_some hresult.limit)
    · exact Meets.pure hresult

end Safety

end Mwemu.Decompress
