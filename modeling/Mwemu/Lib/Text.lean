import Mathlib

/-!
# Text

Strings as lists of characters, with the operations of a host language whose whitespace is that of
Unicode and whose letters are folded in the ASCII range only.
-/

namespace Mwemu.Lib

abbrev Text := List Char

namespace Text

def isWhitespace (c : Char) : Bool :=
  (9 ≤ c.toNat && c.toNat ≤ 13) || (0x2000 ≤ c.toNat && c.toNat ≤ 0x200a) ||
    [0x20, 0x85, 0xa0, 0x1680, 0x2028, 0x2029, 0x202f, 0x205f, 0x3000].contains c.toNat

def trim (s : Text) : Text :=
  ((s.dropWhile isWhitespace).reverse.dropWhile isWhitespace).reverse

def toAsciiLowercase (s : Text) : Text :=
  s.map fun c => if 'A' ≤ c ∧ c ≤ 'Z' then Char.ofNat (c.toNat + 32) else c

theorem toAsciiLowercase_eq (s : Text) : s.toAsciiLowercase = s.map Char.toLower := by
  refine List.map_congr_left fun c _ => ?_
  by_cases hc : c.isUpper
  · rw [if_pos (by simpa [Char.isUpper, Char.le_def] using hc), Char.toLower_eq_of_isUpper hc]
  · rw [if_neg (by simpa [Char.isUpper, Char.le_def] using hc), Char.toLower_eq_of_not_isUpper hc]

theorem toLower_eq_iff {c d : Char} (hd : d.isAlpha = false) : c.toLower = d ↔ c = d := by
  have hkept {c : Char} (hc : c.isAlpha = false) : c.toLower = c :=
    Char.toLower_eq_of_not_isUpper fun hupper => by simp [Char.isAlpha, hupper] at hc
  constructor
  · rintro rfl
    exact (hkept ((Char.isAlpha_toLower_eq_isAlpha c).symm.trans hd)).symm
  · rintro rfl
    exact hkept hd

def splitOnce (c : Char) (s : Text) : Option (Text × Text) :=
  if c ∈ s then some (s.takeWhile (· ≠ c), (s.dropWhile (· ≠ c)).drop 1) else none

def rsplitOnce (c : Char) (s : Text) : Option (Text × Text) :=
  (splitOnce c s.reverse).map fun parts => (parts.2.reverse, parts.1.reverse)

def stripSuffix (suffix s : Text) : Option Text :=
  if suffix.isSuffixOf s then some (s.take (s.length - suffix.length)) else none

def parseU32 (s : Text) : Option Nat :=
  let digits := if s.head? = some '+' then s.drop 1 else s
  if digits ≠ [] ∧ digits.all Char.isDigit then
    let n := digits.foldl (fun n c => 10 * n + (c.toNat - '0'.toNat)) 0
    if n < 2 ^ 32 then some n else none
  else none

end Text

end Mwemu.Lib
