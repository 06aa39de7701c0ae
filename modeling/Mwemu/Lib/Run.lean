import Mathlib.Algebra.Order.Ring.Nat
import Mathlib.Order.Bounds.Basic

/-!
# Runs of a partial machine

A machine takes an operation to a next state or to no state at all, when the program panics. `run`
takes a list of operations, and `Along` says that every step of the run, from the state it is taken
in, meets a condition.
-/

namespace Mwemu.Lib

open List Option Nat

variable {σ ω : Type*}

def run (step : σ → ω → Option σ) : σ → List ω → Option σ
  | s, [] => some s
  | s, op :: ops => (step s op).bind fun s' => run step s' ops

/-- Every step of the run from `s` meets `cond`. -/
def Along (step : σ → ω → Option σ) (cond : σ → ω → Prop) : σ → List ω → Prop
  | _, [] => True
  | s, op :: ops => cond s op ∧ ∀ s', step s op = some s' → Along step cond s' ops

variable {step : σ → ω → Option σ} {cond : σ → ω → Prop} {ops : List ω} {s : σ} (inv : σ → Prop)

instance Along.decidable [∀ s op, Decidable (cond s op)] (s : σ) (ops : List ω) :
    Decidable (Along step cond s ops) :=
  match ops with
  | [] => .isTrue trivial
  | op :: ops =>
    match hstep : step s op with
    | none => decidable_of_iff (cond s op) (by simp [Along, hstep])
    | some s' =>
      have : Decidable (Along step cond s' ops) := Along.decidable s' ops
      decidable_of_iff (cond s op ∧ Along step cond s' ops) (by simp [Along, hstep])

theorem along_true (s : σ) (ops : List ω) : Along step (fun _ _ => True) s ops := by
  induction ops generalizing s with
  | nil => trivial
  | cons op ops ih => exact ⟨trivial, fun s' _ => ih s'⟩

theorem Along.mono {cond' : σ → ω → Prop} (hops : Along step cond s ops)
    (himp : ∀ s op, cond s op → cond' s op) : Along step cond' s ops := by
  induction ops generalizing s with
  | nil => trivial
  | cons op ops ih => exact ⟨himp s op hops.1, fun s' hs' => ih (hops.2 s' hs')⟩

theorem Along.and {cond' : σ → ω → Prop} (hops : Along step cond s ops)
    (hops' : Along step cond' s ops) : Along step (fun s op => cond s op ∧ cond' s op) s ops := by
  induction ops generalizing s with
  | nil => trivial
  | cons op ops ih =>
    exact ⟨⟨hops.1, hops'.1⟩, fun s' hs' => ih (hops.2 s' hs') (hops'.2 s' hs')⟩

theorem Along.take (hops : Along step cond s ops) (n : Nat) : Along step cond s (ops.take n) := by
  induction ops generalizing s n with
  | nil =>
    rw [take_nil]
    exact hops
  | cons op ops ih =>
    cases n with
    | zero => trivial
    | succ n => exact ⟨hops.1, fun s' hs' => ih (hops.2 s' hs') n⟩

theorem run_append (s : σ) (ops ops' : List ω) :
    run step s (ops ++ ops') = (run step s ops).bind fun s' => run step s' ops' := by
  induction ops generalizing s with
  | nil => rfl
  | cons op ops ih =>
    rw [cons_append, run, run, bind_assoc]
    congr 1
    funext s'
    exact ih s'

theorem run_concat (s : σ) (ops : List ω) (op : ω) :
    run step s (ops ++ [op]) = (run step s ops).bind fun s' => step s' op := by
  rw [run_append]
  congr 1
  funext s'
  exact bind_fun_some (step s' op)

theorem Along.append {ops ops' : List ω} (hops : Along step cond s (ops ++ ops')) {s' : σ}
    (hrun : run step s ops = some s') : Along step cond s' ops' := by
  induction ops generalizing s with
  | nil =>
    cases hrun
    exact hops
  | cons op ops ih =>
    obtain ⟨t, ht, hrun⟩ := bind_eq_some_iff.mp hrun
    exact ih (hops.2 t ht) hrun

/-- Steps that meet the condition neither panic nor leave the invariant, so no run of such steps
does. -/
theorem run_invariant
    (hstep : ∀ s op, inv s → cond s op → ∃ s', step s op = some s' ∧ inv s')
    (hinv : inv s) (hcond : Along step cond s ops) :
    ∃ s', run step s ops = some s' ∧ inv s' := by
  induction ops generalizing s with
  | nil => exact ⟨s, rfl, hinv⟩
  | cons op ops ih =>
    obtain ⟨hop, hrest⟩ := hcond
    obtain ⟨s', hs', hinv'⟩ := hstep s op hinv hop
    obtain ⟨t, ht, hinvt⟩ := ih hinv' (hrest s' hs')
    refine ⟨t, ?_, hinvt⟩
    rw [run, hs']
    exact ht

/-- If a step stays in the invariant exactly when it meets the condition, a run does so at every
point exactly when all its steps meet the condition. -/
theorem run_invariant_iff {pre : σ → ω → Prop}
    (hstep : ∀ s op, inv s → pre s op → ((∃ s', step s op = some s' ∧ inv s') ↔ cond s op))
    (hinv : inv s) (hpre : Along step pre s ops) :
    (∀ n, ∃ s', run step s (ops.take n) = some s' ∧ inv s') ↔ Along step cond s ops := by
  induction ops generalizing s with
  | nil => exact ⟨fun _ => trivial, fun _ n => ⟨s, by rw [take_nil]; rfl, hinv⟩⟩
  | cons op ops ih =>
    obtain ⟨hop, hrest⟩ := hpre
    constructor
    · intro hall
      obtain ⟨s', hs', hinv'⟩ : ∃ s', step s op = some s' ∧ inv s' := by
        obtain ⟨s', hs', hinv'⟩ := hall 1
        rw [take_succ_cons, take_zero, run, bind_eq_some_iff] at hs'
        obtain ⟨t, ht, heq⟩ := hs'
        cases heq
        exact ⟨s', ht, hinv'⟩
      refine ⟨(hstep s op hinv hop).mp ⟨s', hs', hinv'⟩, fun t ht => ?_⟩
      obtain rfl : s' = t := Option.some.inj (hs'.symm.trans ht)
      refine (ih hinv' (hrest s' ht)).mp fun n => ?_
      obtain ⟨t, ht, hinvt⟩ := hall (n + 1)
      rw [take_succ_cons, run, hs'] at ht
      exact ⟨t, ht, hinvt⟩
    · rintro ⟨hcond, hconds⟩ n
      obtain ⟨s', hs', hinv'⟩ := (hstep s op hinv hop).mpr hcond
      cases n with
      | zero => exact ⟨s, rfl, hinv⟩
      | succ n =>
        obtain ⟨t, ht, hinvt⟩ := (ih hinv' (hrest s' hs')).mpr (hconds s' hs') n
        refine ⟨t, ?_, hinvt⟩
        rw [take_succ_cons, run, hs']
        exact ht

/-- Two conditions that agree in the states of an invariant, which one of them keeps, agree along
runs. -/
theorem along_iff {cond' : σ → ω → Prop}
    (hiff : ∀ s op, inv s → (cond' s op ↔ cond s op))
    (hstep : ∀ s op s', inv s → cond s op → step s op = some s' → inv s')
    (hinv : inv s) : Along step cond' s ops ↔ Along step cond s ops := by
  induction ops generalizing s with
  | nil => exact Iff.rfl
  | cons op ops ih =>
    rw [Along, Along, hiff s op hinv]
    refine and_congr_right fun hcond => forall_congr' fun s' => imp_congr_right fun hs' => ?_
    exact ih (hstep s op s' hinv hcond hs')

theorem run_related {R : σ → σ → Prop} (hrefl : ∀ s, R s s)
    (htrans : ∀ {s t u}, R s t → R t u → R s u)
    (hstep : ∀ s op s', inv s → cond s op → step s op = some s' → inv s' ∧ R s s')
    {s s' : σ} (hinv : inv s) (hcond : Along step cond s ops)
    (hrun : run step s ops = some s') : inv s' ∧ R s s' := by
  induction ops generalizing s with
  | nil =>
    cases hrun
    exact ⟨hinv, hrefl _⟩
  | cons op ops ih =>
    rw [run, bind_eq_some_iff] at hrun
    obtain ⟨t, ht, hrun⟩ := hrun
    obtain ⟨hinvt, hst⟩ := hstep s op t hinv hcond.1 ht
    obtain ⟨hinv', hts'⟩ := ih hinvt (hcond.2 t ht) hrun
    exact ⟨hinv', htrans hst hts'⟩

theorem run_preserves
    (hstep : ∀ s op s', inv s → cond s op → step s op = some s' → inv s')
    {s s' : σ} (hinv : inv s) (hcond : Along step cond s ops)
    (hrun : run step s ops = some s') : inv s' :=
  (run_related inv (R := fun _ _ => True) (fun _ => trivial) (fun _ _ => trivial)
    (fun s op s' hinv hop hs' => ⟨hstep s op s' hinv hop hs', trivial⟩) hinv hcond hrun).1

/-- If every step raises a record to the value that it leads to, the record is the greatest value of
the run so far. -/
theorem run_greatest (value record : σ → Nat) (hstep : ∀ s op, inv s → cond s op →
      ∃ s', step s op = some s' ∧ inv s' ∧ record s' = max (record s) (value s'))
    (hinv : inv s) (hstart : record s = value s)
    (hcond : Along step cond s ops) (k : Nat) : ∃ s', run step s (ops.take k) = some s' ∧ inv s' ∧
      IsGreatest {n | ∃ j ≤ k, ∃ t, run step s (ops.take j) = some t ∧ value t = n} (record s') := by
  induction k with
  | zero =>
    refine ⟨s, rfl, hinv, ⟨0, le_refl _, s, rfl, hstart.symm⟩, ?_⟩
    rintro n ⟨j, hj, t, ht, rfl⟩
    obtain rfl : j = 0 := le_zero.mp hj
    cases ht
    exact le_of_eq hstart.symm
  | succ k ih =>
    obtain ⟨s', hrun, hinv', ⟨j₀, hj₀, t₀, ht₀, hvalue₀⟩, hupper⟩ := ih
    rcases lt_or_ge k ops.length with hlt | hge
    · -- one more step, from the state reached
      have htake : ops.take (k + 1) = ops.take k ++ [ops[k]] := by
        rw [take_add_one, List.getElem?_eq_getElem hlt]
        rfl
      have hsplit : Along step cond s (ops.take k ++ [ops[k]]) := htake ▸ hcond.take (k + 1)
      have hop : cond s' ops[k] := (hsplit.append hrun).1
      obtain ⟨s'', hs'', hinv'', hrecord⟩ := hstep s' ops[k] hinv' hop
      have hrun' : run step s (ops.take (k + 1)) = some s'' := by
        rw [htake, run_concat, hrun, bind_some, hs'']
      refine ⟨s'', hrun', hinv'', ?_, ?_⟩
      · rcases le_total (record s') (value s'') with hle | hle
        · exact ⟨k + 1, le_refl _, s'', hrun', by rw [hrecord, max_eq_right hle]⟩
        · exact ⟨j₀, le_succ_of_le hj₀, t₀, ht₀, by rw [hvalue₀, hrecord, max_eq_left hle]⟩
      rintro n ⟨j, hj, t, ht, rfl⟩
      rw [hrecord]
      rcases le_succ_iff.mp hj with hle | rfl
      · exact le_trans (hupper ⟨j, hle, t, ht, rfl⟩) (le_max_left _ _)
      · rw [hrun'] at ht
        cases ht
        exact le_max_right _ _
    · -- the run is over
      have htake : ops.take (k + 1) = ops.take k := by
        rw [take_of_length_le hge, take_of_length_le (le_succ_of_le hge)]
      refine ⟨s', htake ▸ hrun, hinv', ⟨j₀, le_succ_of_le hj₀, t₀, ht₀, hvalue₀⟩, ?_⟩
      rintro n ⟨j, hj, t, ht, rfl⟩
      rcases le_succ_iff.mp hj with hle | rfl
      · exact hupper ⟨j, hle, t, ht, rfl⟩
      · exact hupper ⟨k, le_refl _, t, htake ▸ ht, rfl⟩

end Mwemu.Lib
