import Mathlib.Algebra.Order.Ring.Nat
import Mathlib.Order.Preorder.Finite

/-!
# Depth-first walks without a visited set

A walk that runs the calls of a key in order and recurses into the keys it visits. Nothing marks a
key as visited, so whether the walk returns is decided by the keys it enters: over finitely many of
them it returns just when none of those gets stuck and none leads back to itself.
-/

namespace Mwemu.Lib.DepthFirst

variable {κ : Type}

inductive Call (κ : Type) where
  | visit (k : κ)
  | fail
  | stuck
  deriving DecidableEq

def exec (recurse : κ → Option Bool) : List (Call κ) → Option Bool
  | [] => some true
  | .fail :: _ => some false
  | .stuck :: _ => none
  | .visit k :: calls =>
    match recurse k with
    | some true => exec recurse calls
    | result => result

def walk (plan : κ → List (Call κ)) : Nat → κ → Option Bool
  | 0, _ => none
  | depth + 1, k => exec (walk plan depth) (plan k)

variable {plan : κ → List (Call κ)} {k : κ}

/-- Every call in the tree below the key is a visit, and the tree is finite. -/
inductive Completes (plan : κ → List (Call κ)) : κ → Prop
  | intro {k : κ} (hvisits : ∀ call ∈ plan k, ∃ c, call = .visit c)
      (hbelow : ∀ c, .visit c ∈ plan k → Completes plan c) : Completes plan k

/-- The calls are visits that complete, so the walk gets past them. -/
def Passed (plan : κ → List (Call κ)) (calls : List (Call κ)) : Prop :=
  ∀ call ∈ calls, ∃ c, call = .visit c ∧ Completes plan c

/-- The processing of a key comes to the visit of another. -/
def Enters (plan : κ → List (Call κ)) (k c : κ) : Prop :=
  ∃ done rest, plan k = done ++ .visit c :: rest ∧ Passed plan done

/-- The processing of a key comes to a call that never returns. -/
def Jams (plan : κ → List (Call κ)) (k : κ) : Prop :=
  ∃ done rest, plan k = done ++ .stuck :: rest ∧ Passed plan done

theorem Enters.mem {k c : κ} (henters : Enters plan k c) : .visit c ∈ plan k := by
  obtain ⟨done, rest, hplan, -⟩ := henters
  rw [hplan]
  exact List.mem_append_right done List.mem_cons_self

theorem Jams.mem (hjams : Jams plan k) : .stuck ∈ plan k := by
  obtain ⟨done, rest, hplan, -⟩ := hjams
  rw [hplan]
  exact List.mem_append_right done List.mem_cons_self

def Returns (plan : κ → List (Call κ)) (k : κ) : Prop :=
  ∃ depth, walk plan depth k ≠ none

/-! ### Depth -/

variable {b : Bool} {calls : List (Call κ)}

theorem exec_mono {recurse recurse' : κ → Option Bool}
    (hle : ∀ k b, recurse k = some b → recurse' k = some b)
    (hexec : exec recurse calls = some b) : exec recurse' calls = some b := by
  induction calls with
  | nil => exact hexec
  | cons call calls ih =>
    cases call with
    | fail => exact hexec
    | stuck => cases hexec
    | visit k =>
      rw [exec] at hexec ⊢
      cases hk : recurse k with
      | none => rw [hk] at hexec; cases hexec
      | some ok =>
        rw [hk] at hexec
        rw [hle k ok hk]
        cases ok with
        | true => exact ih hexec
        | false => exact hexec

variable {depth : Nat} {recurse : κ → Option Bool}

theorem walk_succ (hwalk : walk plan depth k = some b) : walk plan (depth + 1) k = some b := by
  induction depth generalizing k b with
  | zero => cases hwalk
  | succ depth ih => exact exec_mono (fun _ _ => ih) hwalk

theorem walk_mono {depth' : Nat} (hle : depth ≤ depth')
    (hwalk : walk plan depth k = some b) : walk plan depth' k = some b := by
  induction hle with
  | refl => exact hwalk
  | step _ ih => exact walk_succ ih

theorem exec_append (calls calls' : List (Call κ)) : exec recurse (calls ++ calls') =
      (exec recurse calls).bind fun ok => if ok then exec recurse calls' else some false := by
  induction calls with
  | nil => rfl
  | cons call calls ih =>
    cases call with
    | fail => rfl
    | stuck => rfl
    | visit k =>
      rw [List.cons_append, exec, exec, ih]
      cases recurse k with
      | none => rfl
      | some ok => cases ok <;> rfl

theorem exec_visit (k : κ) : exec recurse [.visit k] = recurse k := by
  rw [exec]
  cases recurse k with
  | none => rfl
  | some ok => cases ok <;> rfl

/-! ### Completed calls -/

theorem exec_eq_true_iff :
    exec recurse calls = some true ↔ ∀ call ∈ calls, ∃ c, call = .visit c ∧ recurse c = some true := by
  induction calls with
  | nil => simp [exec]
  | cons call calls ih =>
    cases call with
    | fail => simp [exec]
    | stuck => simp [exec]
    | visit k =>
      rw [exec]
      cases hk : recurse k with
      | none => simp [hk]
      | some ok => cases ok <;> simp [hk, ih]

theorem completes_of_walk (hwalk : walk plan depth k = some true) : Completes plan k := by
  induction depth generalizing k with
  | zero => cases hwalk
  | succ depth ih =>
    rw [walk, exec_eq_true_iff] at hwalk
    refine ⟨fun call hcall => ?_, fun c hc => ?_⟩
    · obtain ⟨c, hc, -⟩ := hwalk call hcall
      exact ⟨c, hc⟩
    · obtain ⟨d, hd, hok⟩ := hwalk _ hc
      cases hd
      exact ih hok

theorem exists_exec_of_forall
    (hcalls : ∀ call ∈ calls, ∃ c, call = .visit c ∧ ∃ depth, walk plan depth c = some true) :
    ∃ depth, exec (walk plan depth) calls = some true := by
  induction calls with
  | nil => exact ⟨0, rfl⟩
  | cons call calls ih =>
    obtain ⟨c, rfl, d₁, h₁⟩ := hcalls call List.mem_cons_self
    obtain ⟨d₂, h₂⟩ := ih fun call hcall => hcalls call (List.mem_cons_of_mem _ hcall)
    refine ⟨max d₁ d₂, ?_⟩
    rw [exec, walk_mono (le_max_left d₁ d₂) h₁]
    exact exec_mono (fun _ _ => walk_mono (le_max_right d₁ d₂)) h₂

theorem Completes.exists_walk (hk : Completes plan k) : ∃ depth, walk plan depth k = some true := by
  induction hk with
  | @intro k hvisits hbelow ih =>
    have hcalls : ∀ call ∈ plan k, ∃ c, call = .visit c ∧ ∃ d, walk plan d c = some true := by
      intro call hcall
      obtain ⟨c, rfl⟩ := hvisits call hcall
      exact ⟨c, rfl, ih c hcall⟩
    obtain ⟨depth, hdepth⟩ := exists_exec_of_forall hcalls
    exact ⟨depth + 1, hdepth⟩

theorem Passed.exists_exec (hpassed : Passed plan calls) :
    ∃ depth, exec (walk plan depth) calls = some true :=
  exists_exec_of_forall fun call hcall =>
    (hpassed call hcall).imp fun _ h => ⟨h.1, h.2.exists_walk⟩

theorem exec_of_passed (hpassed : Passed plan calls)
    (hexec : exec (walk plan depth) calls = some b) : b = true := by
  obtain ⟨d, hd⟩ := hpassed.exists_exec
  have h₁ := exec_mono (fun _ _ => walk_mono (le_max_left depth d)) hexec
  have h₂ := exec_mono (fun _ _ => walk_mono (le_max_right depth d)) hd
  exact Option.some.inj (h₁.symm.trans h₂)

/-! ### What a walk that returns went through -/

theorem not_jams_of_walk (hwalk : walk plan depth k ≠ none) : ¬ Jams plan k := by
  rintro ⟨done, rest, hplan, hpassed⟩
  cases depth with
  | zero => exact hwalk rfl
  | succ depth =>
    rw [walk, hplan, exec_append] at hwalk
    cases hdone : exec (walk plan depth) done with
    | none => exact hwalk (by rw [hdone]; rfl)
    | some ok =>
      obtain rfl := exec_of_passed hpassed hdone
      exact hwalk (by rw [hdone]; rfl)

theorem walk_of_enters {k c : κ} (henters : Enters plan k c)
    (hwalk : walk plan (depth + 1) k ≠ none) : walk plan depth c ≠ none := by
  obtain ⟨done, rest, hplan, hpassed⟩ := henters
  intro hnone
  rw [walk, hplan, exec_append] at hwalk
  cases hdone : exec (walk plan depth) done with
  | none => exact hwalk (by rw [hdone]; rfl)
  | some ok =>
    obtain rfl := exec_of_passed hpassed hdone
    exact hwalk (by rw [hdone]; simp [exec, hnone])

theorem Returns.of_enters {k c : κ} (henters : Enters plan k c) (hk : Returns plan k) :
    Returns plan c := by
  obtain ⟨depth, hdepth⟩ := hk
  cases depth with
  | zero => exact absurd rfl hdepth
  | succ depth => exact ⟨depth, walk_of_enters henters hdepth⟩

theorem Returns.of_reflTransGen {k c : κ} (hreach : Relation.ReflTransGen (Enters plan) k c)
    (hk : Returns plan k) : Returns plan c := by
  induction hreach with
  | refl => exact hk
  | tail _ henters ih => exact ih.of_enters henters

theorem walk_of_transGen {k c : κ} (hreach : Relation.TransGen (Enters plan) k c)
    (hwalk : walk plan (depth + 1) k ≠ none) : walk plan depth c ≠ none := by
  induction hreach with
  | single henters => exact walk_of_enters henters hwalk
  | tail _ henters ih =>
    obtain ⟨b, hb⟩ := Option.ne_none_iff_exists'.mp ih
    exact walk_of_enters henters (by rw [walk_succ hb]; exact nofun)

theorem not_returns_of_cycle (hcycle : Relation.TransGen (Enters plan) k k) : ¬ Returns plan k := by
  rintro ⟨depth, hdepth⟩
  induction depth with
  | zero => exact hdepth rfl
  | succ depth ih => exact ih (walk_of_transGen hcycle hdepth)

/-! ### Walks that do not return -/

theorem exec_cases (calls : List (Call κ)) : (∃ depth, exec (walk plan depth) calls ≠ none) ∨
      (∃ done rest, calls = done ++ .stuck :: rest ∧ Passed plan done) ∨
      ∃ done c rest, calls = done ++ .visit c :: rest ∧ Passed plan done ∧ ¬ Returns plan c := by
  induction calls with
  | nil => exact .inl ⟨0, nofun⟩
  | cons call calls ih =>
    cases call with
    | fail => exact .inl ⟨0, nofun⟩
    | stuck => exact .inr (.inl ⟨[], calls, rfl, nofun⟩)
    | visit k =>
      by_cases hk : Returns plan k
      · obtain ⟨d, hd⟩ := hk
        obtain ⟨ok, hok⟩ := Option.ne_none_iff_exists'.mp hd
        cases ok with
        | false => exact .inl ⟨d, by rw [exec, hok]; exact nofun⟩
        | true =>
          have hpass : ∀ done, Passed plan done → Passed plan (.visit k :: done) := by
            intro done hdone
            exact List.forall_mem_cons.mpr ⟨⟨k, rfl, completes_of_walk hok⟩, hdone⟩
          rcases ih with ⟨d', hd'⟩ | ⟨done, rest, rfl, hdone⟩ | ⟨done, c, rest, rfl, hdone, hc⟩
          · obtain ⟨b, hb⟩ := Option.ne_none_iff_exists'.mp hd'
            refine .inl ⟨max d d', ?_⟩
            have hrest : exec (walk plan (max d d')) calls = some b :=
              exec_mono (fun _ _ => walk_mono (le_max_right d d')) hb
            simp [exec, walk_mono (le_max_left d d') hok, hrest]
          · exact .inr (.inl ⟨_ :: done, rest, rfl, hpass done hdone⟩)
          · exact .inr (.inr ⟨_ :: done, c, rest, rfl, hpass done hdone, hc⟩)
      · exact .inr (.inr ⟨[], k, calls, rfl, nofun, hk⟩)

theorem jams_or_enters_of_not_returns (hk : ¬ Returns plan k) :
    Jams plan k ∨ ∃ c, Enters plan k c ∧ ¬ Returns plan c := by
  rcases exec_cases (plan k) with ⟨d, hd⟩ | ⟨done, rest, hplan, hdone⟩ |
      ⟨done, c, rest, hplan, hdone, hc⟩
  · exact absurd ⟨d + 1, hd⟩ hk
  · exact .inl ⟨done, rest, hplan, hdone⟩
  · exact .inr ⟨c, ⟨done, rest, hplan, hdone⟩, hc⟩

theorem exists_cycle_of_path {r : κ → κ → Prop} (hfinite : {c | ∃ k, r k c}.Finite)
    {path : Nat → κ} (hpath : ∀ n, r (path n) (path (n + 1))) :
    ∃ n, Relation.TransGen r (path n) (path n) := by
  have hmem : ∀ n, path (n + 1) ∈ {c | ∃ k, r k c} := fun n => ⟨path n, hpath n⟩
  obtain ⟨i, j, hlt, heq⟩ := Set.Finite.exists_lt_map_eq_of_forall_mem hmem hfinite
  have hreach : Relation.TransGen r (path (i + 1)) (path (j + 1)) :=
    Nat.rel_of_forall_rel_succ_of_lt (Relation.TransGen r) (fun n => .single (hpath n))
      (Nat.succ_lt_succ hlt)
  rw [← heq] at hreach
  exact ⟨i + 1, hreach⟩

theorem returns_iff (hfinite : {c | ∃ k, Enters plan k c}.Finite) (k : κ) :
    Returns plan k ↔ ∀ c, Relation.ReflTransGen (Enters plan) k c →
      ¬ Jams plan c ∧ ¬ Relation.TransGen (Enters plan) c c := by
  constructor
  · intro hk c hreach
    obtain ⟨depth, hdepth⟩ := hk.of_reflTransGen hreach
    exact ⟨not_jams_of_walk hdepth, fun hcycle => not_returns_of_cycle hcycle ⟨depth, hdepth⟩⟩
  intro hsafe
  by_contra hk
  -- the keys whose walk does not return form an endless path from `k`
  have hnext : ∀ p : {c // Relation.ReflTransGen (Enters plan) k c ∧ ¬ Returns plan c},
      ∃ q : {c // Relation.ReflTransGen (Enters plan) k c ∧ ¬ Returns plan c},
        Enters plan p.1 q.1 := by
    rintro ⟨c, hreach, hc⟩
    rcases jams_or_enters_of_not_returns hc with hjams | ⟨d, henters, hd⟩
    · exact absurd hjams (hsafe c hreach).1
    · exact ⟨⟨d, hreach.tail henters, hd⟩, henters⟩
  choose next hentered using hnext
  have hpath : ∀ n, Enters plan (next^[n] ⟨k, .refl, hk⟩).1 (next^[n + 1] ⟨k, .refl, hk⟩).1 := by
    intro n
    rw [Function.iterate_succ_apply']
    exact hentered _
  obtain ⟨n, hcycle⟩ := exists_cycle_of_path hfinite hpath
  exact (hsafe _ (next^[n] ⟨k, .refl, hk⟩).2.1).2 hcycle

end Mwemu.Lib.DepthFirst
