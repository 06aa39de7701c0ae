import Mathlib.Data.List.Induction
import Mathlib.Data.List.Nodup
import Mathlib.Logic.Relation

/-!
# Doubly linked lists

The nodes of a list are linked both ways by two partial functions. `Linked` fixes the links of a
segment, given the nodes before and after it, so a list splits at any point into segments. An edit
replaces a segment: only the nodes of the new segment and the two ends next to it change.
-/

namespace Mwemu.Lib

open List Option

variable {ι : Type} {nxt prv nxt' prv' : ι → Option ι}

def Linked (nxt prv : ι → Option ι) : Option ι → List ι → Option ι → Prop
  | _, [], _ => True
  | p, x :: xs, q => prv x = p ∧ nxt x = xs.head?.or q ∧ Linked nxt prv (some x) xs q

theorem head_notMem_tail {xs : List ι} (hnodup : xs.Nodup) {x : ι} (hx : xs.head? = some x) :
    x ∉ xs.tail := by
  cases xs with
  | nil => cases hx
  | cons y ys =>
    cases hx
    exact (nodup_cons.mp hnodup).1

theorem last_notMem_dropLast {xs : List ι} (hnodup : xs.Nodup) {x : ι}
    (hx : xs.getLast? = some x) : x ∉ xs.dropLast := by
  obtain ⟨ys, rfl⟩ := List.getLast?_eq_some_iff.mp hx
  rw [dropLast_concat]
  exact fun hmem => (nodup_append.mp hnodup).2.2 x hmem x (mem_singleton_self x) rfl

namespace Linked

theorem append {p q : Option ι} {xs ys : List ι} : Linked nxt prv p (xs ++ ys) q ↔
      Linked nxt prv p xs (ys.head?.or q) ∧ Linked nxt prv (xs.getLast?.or p) ys q := by
  induction xs generalizing p with
  | nil => simp [Linked]
  | cons x xs ih =>
    have hhead : (xs ++ ys).head?.or q = xs.head?.or (ys.head?.or q) := by
      cases xs <;> rfl
    have hlast : (x :: xs).getLast?.or p = xs.getLast?.or (some x) := by
      cases xs <;> simp [List.getLast?_cons]
    rw [cons_append, Linked, Linked, ih, hhead, hlast]
    tauto

variable {xs : List ι}

theorem congr {p q : Option ι} (hlinked : Linked nxt prv p xs q)
    (hsame : ∀ x ∈ xs, nxt' x = nxt x ∧ prv' x = prv x) : Linked nxt' prv' p xs q := by
  induction xs generalizing p with
  | nil => trivial
  | cons x xs ih =>
    obtain ⟨hprv, hnxt, htail⟩ := hlinked
    obtain ⟨hsame, hrest⟩ := forall_mem_cons.mp hsame
    exact ⟨hsame.2.trans hprv, hsame.1.trans hnxt, ih htail hrest⟩

theorem at_split {xs ys : List ι} {x : ι} (hlinked : Linked nxt prv none (xs ++ x :: ys) none) :
    nxt x = ys.head? ∧ prv x = xs.getLast? := by
  obtain ⟨-, hprv, hnxt, -⟩ := append.mp hlinked
  rw [or_none] at hprv hnxt
  exact ⟨hnxt, hprv⟩

theorem relink_head {p p' q : Option ι} (hlinked : Linked nxt prv p xs q)
    (hnxt : ∀ x ∈ xs, nxt' x = nxt x) (hprv : ∀ x ∈ xs.tail, prv' x = prv x)
    (hhead : ∀ x ∈ xs.head?, prv' x = p') : Linked nxt' prv' p' xs q := by
  cases xs with
  | nil => trivial
  | cons x xs =>
    obtain ⟨-, hn, htail⟩ := hlinked
    obtain ⟨hx, hxs⟩ := forall_mem_cons.mp hnxt
    refine ⟨hhead x rfl, hx.trans hn, htail.congr fun y hy => ⟨hxs y hy, hprv y hy⟩⟩

theorem relink_last {p q q' : Option ι} (hlinked : Linked nxt prv p xs q)
    (hprv : ∀ x ∈ xs, prv' x = prv x) (hnxt : ∀ x ∈ xs.dropLast, nxt' x = nxt x)
    (hlast : ∀ x ∈ xs.getLast?, nxt' x = q') : Linked nxt' prv' p xs q' := by
  induction xs generalizing p with
  | nil => trivial
  | cons x xs ih =>
    obtain ⟨hp, hn, htail⟩ := hlinked
    obtain ⟨hx, hxs⟩ := forall_mem_cons.mp hprv
    cases xs with
    | nil => exact ⟨hx.trans hp, hlast x rfl, trivial⟩
    | cons y ys =>
      rw [dropLast_cons_cons] at hnxt
      obtain ⟨hnx, hnxs⟩ := forall_mem_cons.mp hnxt
      rw [List.getLast?_cons_cons] at hlast
      exact ⟨hx.trans hp, hnx.trans hn, ih htail hxs hnxs hlast⟩

theorem splice {xs mid mid' ys : List ι} (hlinked : Linked nxt prv none (xs ++ mid ++ ys) none)
    (hmid : Linked nxt' prv' xs.getLast? mid' ys.head?) (hhead : mid'.head? = mid.head?)
    (hne : mid ≠ [])
    (hxs : ∀ x ∈ xs, nxt' x = nxt x ∧ prv' x = prv x) (hnxt : ∀ y ∈ ys, nxt' y = nxt y)
    (hprv : ∀ y ∈ ys.tail, prv' y = prv y) (hys : ∀ y ∈ ys.head?, prv' y = mid'.getLast?) :
    Linked nxt' prv' none (xs ++ mid' ++ ys) none := by
  obtain ⟨x, rest, rfl⟩ := exists_cons_of_ne_nil hne
  obtain ⟨x', rest', rfl⟩ : ∃ x' rest', mid' = x' :: rest' := by
    cases mid' with
    | nil => cases hhead
    | cons x' rest' => exact ⟨x', rest', rfl⟩
  obtain rfl : x' = x := Option.some.inj hhead
  rw [append_assoc, append] at hlinked ⊢
  obtain ⟨hleft, hright⟩ := hlinked
  refine ⟨hleft.congr hxs, append.mpr ⟨?_, ?_⟩⟩
  · simpa only [or_none] using hmid
  · refine (append.mp hright).2.relink_head hnxt hprv fun y hy => ?_
    rw [hys y hy, List.getLast?_cons, some_or]

theorem push {x : ι} (hlinked : Linked nxt prv none xs none)
    (hnx : nxt' x = xs.head?) (hpx : prv' x = none) (hnxt : ∀ y ∈ xs, nxt' y = nxt y)
    (hprv : ∀ y ∈ xs.tail, prv' y = prv y) (hhead : ∀ y ∈ xs.head?, prv' y = some x) :
    Linked nxt' prv' none (x :: xs) none :=
  ⟨hpx, by rw [hnx, or_none], hlinked.relink_head hnxt hprv hhead⟩

theorem remove {x : ι} {xs ys : List ι} (hlinked : Linked nxt prv none (xs ++ x :: ys) none)
    (hprv : ∀ y ∈ xs, prv' y = prv y) (hnxt : ∀ y ∈ xs.dropLast, nxt' y = nxt y)
    (hlast : ∀ y ∈ xs.getLast?, nxt' y = ys.head?) (hnxt' : ∀ y ∈ ys, nxt' y = nxt y)
    (hprv' : ∀ y ∈ ys.tail, prv' y = prv y) (hhead : ∀ y ∈ ys.head?, prv' y = xs.getLast?) :
    Linked nxt' prv' none (xs ++ ys) none := by
  obtain ⟨hleft, -, -, hright⟩ := append.mp hlinked
  refine append.mpr ⟨hleft.relink_last hprv hnxt fun y hy => ?_,
    hright.relink_head hnxt' hprv' fun y hy => ?_⟩
  · rw [hlast y hy, or_none]
  · rw [hhead y hy, or_none]

end Linked

/-! ### Walks -/

def walk (f : ι → Option ι) : Nat → Option ι → Option (List ι)
  | _, none => some []
  | 0, some _ => none
  | fuel + 1, some x => (walk f fuel (f x)).map (x :: ·)

def lastFrom (f : ι → Option ι) : Nat → ι → Option ι
  | 0, _ => none
  | fuel + 1, x =>
    match f x with
    | none => some x
    | some y => lastFrom f fuel y

theorem Linked.walk_eq {p : Option ι} {xs : List ι} (hlinked : Linked nxt prv p xs none)
    {fuel : Nat} (hfuel : xs.length ≤ fuel) : walk nxt fuel xs.head? = some xs := by
  induction xs generalizing p fuel with
  | nil => cases fuel <;> rfl
  | cons x xs ih =>
    obtain ⟨-, hnxt, htail⟩ := hlinked
    cases fuel with
    | zero => cases hfuel
    | succ fuel =>
      rw [List.head?_cons, walk, hnxt, or_none, ih htail (Nat.le_of_succ_le_succ hfuel)]
      rfl

variable {f : ι → Option ι} {x y z : ι}

theorem lastFrom_mono {m n : Nat} (hlast : lastFrom f m x = some y) (hle : m ≤ n) :
    lastFrom f n x = some y := by
  induction m generalizing n x with
  | zero => cases hlast
  | succ m ih =>
    cases n with
    | zero => cases hle
    | succ n =>
      rw [lastFrom] at hlast ⊢
      cases hx : f x with
      | none => rwa [hx] at hlast
      | some z =>
        rw [hx] at hlast
        exact ih hlast (Nat.le_of_succ_le_succ hle)

theorem lastFrom_of_reaches (hreach : Relation.ReflTransGen (fun a b => f a = some b) x y)
    (hlast : ∃ n, lastFrom f n y = some z) : ∃ n, lastFrom f n x = some z := by
  induction hreach using Relation.ReflTransGen.head_induction_on with
  | refl => exact hlast
  | head hstep _ ih =>
    obtain ⟨n, hn⟩ := ih
    refine ⟨n + 1, ?_⟩
    rw [lastFrom, hstep]
    exact hn

theorem Linked.lastFrom_eq {xs : List ι} (hlinked : Linked nxt prv none xs none)
    (hf : ∀ y ∈ xs, f y = prv y) (hx : x ∈ xs) : ∃ n, lastFrom f n x = xs.head? := by
  obtain ⟨front, back, rfl⟩ := append_of_mem hx
  induction front using List.reverseRecOn generalizing x back with
  | nil =>
    refine ⟨1, ?_⟩
    rw [lastFrom, hf x hx, hlinked.at_split.2]
    rfl
  | append_singleton front y ih =>
    have hprev : f x = some y := by
      rw [hf x hx, hlinked.at_split.2, List.getLast?_concat]
    rw [append_assoc, singleton_append] at hlinked hf ⊢
    obtain ⟨n, hn⟩ := ih (x :: back) hlinked hf (by simp)
    refine ⟨n + 1, ?_⟩
    rw [lastFrom, hprev]
    exact hn

end Mwemu.Lib
