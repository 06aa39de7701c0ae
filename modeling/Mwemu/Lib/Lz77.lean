import Mathlib.Data.List.Basic

/-!
# LZ77

A compressed text is a sequence of tokens, literals and copies of what was written `disp` places
before. A copy goes element by element, so it may read what it has just written; it then repeats the
last `disp` elements.
-/

namespace Mwemu.Lib.Lz77

inductive Token (α : Type) where
  | literal (a : α)
  | copy (disp len : Nat)
  deriving DecidableEq, Repr

variable {α : Type}

def copyBack (disp : Nat) : Nat → List α → List α
  | 0, out => out
  | len + 1, out =>
    let prev := copyBack disp len out
    prev ++ prev[prev.length - disp]?.toList

namespace Token

def expand : Token α → List α → List α
  | literal a, out => out ++ [a]
  | copy disp len, out => copyBack disp len out

def size : Token α → Nat
  | literal _ => 1
  | copy _ len => len

/-- A copy starts inside the output. -/
def Within (n : Nat) : Token α → Prop
  | literal _ => True
  | copy disp _ => 1 ≤ disp ∧ disp ≤ n

def isCopy : Token α → Bool
  | literal _ => false
  | copy _ _ => true

end Token

def expand (tokens : List (Token α)) (out : List α) : List α :=
  tokens.foldl (fun out t => t.expand out) out

def copyFrom (disp : Nat) (ahead : Nat → Nat) : Nat → List α → List α
  | 0, out => out
  | len + 1, out =>
    let prev := copyFrom disp ahead len out
    prev ++ prev[prev.length - disp + ahead len]?.toList

theorem copyFrom_zero (disp len : Nat) (out : List α) :
    copyFrom disp (fun _ => 0) len out = copyBack disp len out := by
  induction len with
  | zero => rfl
  | succ len ih => rw [copyFrom, copyBack, ih, Nat.add_zero]

section Copy

variable {disp : Nat} {ahead : Nat → Nat} {out : List α}

theorem length_copyFrom (hahead : ∀ i, ahead i < disp) (hle : disp ≤ out.length) (len : Nat) :
    (copyFrom disp ahead len out).length = out.length + len := by
  induction len with
  | zero => rfl
  | succ len ih =>
    have hstep := hahead len
    have hlt : (copyFrom disp ahead len out).length - disp + ahead len <
        (copyFrom disp ahead len out).length := by omega
    rw [copyFrom, List.getElem?_eq_getElem hlt, List.length_append, Option.toList_some,
      List.length_singleton, ih, Nat.add_assoc]

theorem copyFrom_succ (hahead : ∀ i, ahead i < disp) (hle : disp ≤ out.length) (len : Nat) :
    ∃ a, (copyFrom disp ahead len out)[out.length + len - disp + ahead len]? = some a ∧
      copyFrom disp ahead (len + 1) out = copyFrom disp ahead len out ++ [a] := by
  have hlen := length_copyFrom hahead hle len
  have hstep := hahead len
  have hlt : out.length + len - disp + ahead len < (copyFrom disp ahead len out).length := by omega
  refine ⟨(copyFrom disp ahead len out)[out.length + len - disp + ahead len],
    List.getElem?_eq_getElem hlt, ?_⟩
  rw [copyFrom, hlen, List.getElem?_eq_getElem hlt, Option.toList_some]

theorem length_copyBack (hdisp : 1 ≤ disp) (hle : disp ≤ out.length) (len : Nat) :
    (copyBack disp len out).length = out.length + len := by
  rw [← copyFrom_zero]
  exact length_copyFrom (fun _ => hdisp) hle len

theorem copyBack_succ (hdisp : 1 ≤ disp) (hle : disp ≤ out.length) (len : Nat) :
    ∃ a, (copyBack disp len out)[out.length + len - disp]? = some a ∧
      copyBack disp (len + 1) out = copyBack disp len out ++ [a] := by
  simp only [← copyFrom_zero]
  exact copyFrom_succ (fun _ => hdisp) hle len

theorem copyBack_append_left (before : List α) (hdisp : 1 ≤ disp) (hle : disp ≤ out.length)
    (len : Nat) : copyBack disp len (before ++ out) = before ++ copyBack disp len out := by
  induction len with
  | zero => rfl
  | succ len ih =>
    have hlen := length_copyBack hdisp hle len
    rw [copyBack, copyBack, ih, List.length_append, List.getElem?_append_right (by omega),
      List.append_assoc]
    congr 4
    omega

theorem getElem?_copyBack (hdisp : 1 ≤ disp) (hle : disp ≤ out.length) {len k : Nat}
    (hk : k < disp + len) : (copyBack disp len out)[out.length - disp + k]? =
      out[out.length - disp + k % disp]? := by
  induction len generalizing k with
  | zero => rw [copyBack, Nat.mod_eq_of_lt (by omega)]
  | succ len ih =>
    have hlen := length_copyBack hdisp hle len
    by_cases hlast : k < disp + len
    · rw [copyBack, List.getElem?_append_left (by omega), ih hlast]
    obtain ⟨a, ha, hsucc⟩ := copyBack_succ hdisp hle len
    have hk' : k = disp + len := by omega
    have hat : out.length - disp + k = (copyBack disp len out).length := by omega
    rw [hsucc, hat, List.getElem?_concat_length, ← ha, Nat.sub_add_comm hle, ih (by omega), hk',
      Nat.add_mod_left]

theorem copyFrom_eq_copyBack_iff (hahead : ∀ i, ahead i < disp) (hle : disp ≤ out.length)
    (len : Nat) : copyFrom disp ahead len out = copyBack disp len out ↔
      ∀ i < len, out[out.length - disp + (i + ahead i) % disp]? =
        out[out.length - disp + i % disp]? := by
  have hdisp : 1 ≤ disp := Nat.lt_of_le_of_lt (Nat.zero_le _) (hahead 0)
  induction len with
  | zero => exact ⟨fun _ i hi => absurd hi (Nat.not_lt_zero i), fun _ => rfl⟩
  | succ len ih =>
    obtain ⟨a, ha, hfrom⟩ := copyFrom_succ hahead hle len
    obtain ⟨b, hb, hback⟩ := copyBack_succ hdisp hle len
    have hstep := hahead len
    rw [Nat.sub_add_comm hle, getElem?_copyBack hdisp hle (by omega)] at hb
    rw [hfrom, hback]
    refine Iff.trans ?_ Nat.forall_lt_succ_right.symm
    constructor
    · intro heq
      obtain ⟨hprev, hlast⟩ := List.append_inj' heq rfl
      refine ⟨ih.mp hprev, ?_⟩
      rw [hprev, Nat.sub_add_comm hle, Nat.add_assoc, getElem?_copyBack hdisp hle (by omega)] at ha
      rw [ha, hb, List.singleton_inj.mp hlast]
    · rintro ⟨hbefore, hlast⟩
      have hprev := ih.mpr hbefore
      rw [hprev, Nat.sub_add_comm hle, Nat.add_assoc,
        getElem?_copyBack hdisp hle (by omega), hlast, hb, Option.some.injEq] at ha
      rw [hprev, ha]

end Copy

/-- Every token has the property where it stands, behind the given number of elements. -/
def EachAt (p : Nat → Token α → Prop) : Nat → List (Token α) → Prop
  | _, [] => True
  | n, t :: ts => p n t ∧ EachAt p (n + t.size) ts

instance EachAt.decidable (p : Nat → Token α → Prop) [∀ n t, Decidable (p n t)] :
    (n : Nat) → (ts : List (Token α)) → Decidable (EachAt p n ts)
  | _, [] => isTrue trivial
  | n, t :: ts =>
    have := EachAt.decidable p (n + t.size) ts
    inferInstanceAs (Decidable (p n t ∧ EachAt p (n + t.size) ts))

theorem Token.length_expand {t : Token α} {out : List α} (hwithin : t.Within out.length) :
    (t.expand out).length = out.length + t.size := by
  cases t with
  | literal a => exact List.length_append
  | copy disp len => exact length_copyBack hwithin.1 hwithin.2 len

theorem expand_cons (t : Token α) (tokens : List (Token α)) (out : List α) :
    expand (t :: tokens) out = expand tokens (t.expand out) := rfl

end Mwemu.Lib.Lz77
