import Mathlib.Data.List.Basic

/-!
# Segments of a list

A list as a file: `At file off bs` says that `bs` stands at the offset `off`. A file is put together
by appending; a table stands at the start of what was appended, and its entries at multiples of
their size.
-/

namespace Mwemu.Lib

open List

variable {α β : Type} {file rest bs : List α} {off : Nat}

/-- The segment `bs` stands at the offset. -/
def At (file : List α) (off : Nat) (bs : List α) : Prop :=
  bs <+: file.drop off

theorem At.take_drop (hat : At file off bs) : (file.drop off).take bs.length = bs :=
  (prefix_iff_eq_take.mp hat).symm

theorem At.length_le (hat : At file off bs) (hoff : off ≤ file.length) :
    off + bs.length ≤ file.length := by
  have hlen : bs.length ≤ (file.drop off).length := List.IsPrefix.length_le hat
  rw [length_drop] at hlen
  omega

theorem at_length (a b rest : List α) : At (a ++ (b ++ rest)) a.length b := by
  rw [At, drop_left]
  exact prefix_append b rest

theorem At.append (hat : At file off bs) (hoff : off ≤ file.length) (rest : List α) :
    At (file ++ rest) off bs := by
  rw [At, drop_append_of_le_length hoff]
  exact hat.trans (prefix_append _ _)

theorem At.mono {file' : List α} (hat : At file off bs) (hoff : off ≤ file.length)
    (hfile : file <+: file') : At file' off bs := by
  obtain ⟨rest, rfl⟩ := hfile
  exact hat.append hoff rest

theorem At.inner {a b c : List α} (hat : At file off (a ++ (b ++ c))) :
    At file (off + a.length) b := by
  obtain ⟨rest, hrest⟩ := hat
  rw [At, ← drop_drop, ← hrest, append_assoc, drop_left, append_assoc]
  exact prefix_append _ _

theorem At.head {a b : List α} (hat : At file off (a ++ b)) : At file off a :=
  (prefix_append a b).trans hat

theorem At.tail {a b : List α} (hat : At file off (a ++ b)) : At file (off + a.length) b := by
  have hinner : At file off (a ++ (b ++ [])) := by rwa [append_nil]
  exact hinner.inner

variable {i : Nat} {f : β → List α} {xs : List β}

theorem flatMap_split (hi : i < xs.length) :
    xs.flatMap f = (xs.take i).flatMap f ++ (f xs[i] ++ (xs.drop (i + 1)).flatMap f) := by
  rw [← flatMap_cons, ← drop_eq_getElem_cons hi, ← flatMap_append, take_append_drop]

theorem At.flatMap (hat : At file off (xs.flatMap f))
    (hi : i < xs.length) : At file (off + ((xs.take i).flatMap f).length) (f xs[i]) := by
  rw [flatMap_split hi] at hat
  exact hat.inner

theorem length_flatMap_take_add_le (f : β → List α) (hi : i < xs.length) :
    ((xs.take i).flatMap f).length + (f xs[i]).length ≤ (xs.flatMap f).length := by
  have hlen := congrArg List.length (flatMap_split (f := f) hi)
  rw [length_append, length_append] at hlen
  omega

theorem length_flatMap_take {size : Nat}
    (hsize : ∀ x ∈ xs, (f x).length = size) (hi : i ≤ xs.length) :
    ((xs.take i).flatMap f).length = size * i := by
  induction xs generalizing i with
  | nil =>
    obtain rfl : i = 0 := by simpa using hi
    rfl
  | cons x xs ih =>
    cases i with
    | zero => rfl
    | succ i =>
      rw [take_succ_cons, flatMap_cons, length_append, hsize x mem_cons_self,
        ih (fun y hy => hsize y (mem_cons_of_mem _ hy)) (Nat.le_of_succ_le_succ hi)]
      rw [Nat.mul_succ, Nat.add_comm]

theorem length_flatMap_of_size {size : Nat}
    (hsize : ∀ x ∈ xs, (f x).length = size) : (xs.flatMap f).length = size * xs.length := by
  have hlen := length_flatMap_take hsize (Nat.le_refl xs.length)
  rwa [take_length] at hlen

end Mwemu.Lib
