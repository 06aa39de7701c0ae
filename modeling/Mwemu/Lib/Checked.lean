import Mathlib.Algebra.Order.Ring.Nat

/-!
# Imperative code that may fault

Code whose every index, addition and subtraction can fault is a computation in `Except`. A loop body
ends a pass in one of three ways, a `LoopStep`; `whileLoop` and `forRange` run bodies, and `Meets`
says what a computation may end with. Each construct has one rule for `Meets`, so a proof about a
program follows its text.

`Visits` is the run of a `whileLoop`: the states in which its condition is evaluated. It is what a
condition on the states of a run quantifies over. `Returns` says that a computation does not fault;
its rules are equivalences.
-/

namespace Mwemu.Lib

/-- How one pass through a loop body ends: with the next pass, with `break`, or with `return`. -/
inductive LoopStep (σ ρ : Type) where
  | next (s : σ)
  | leave (s : σ)
  | ret (r : ρ)
  deriving DecidableEq, Repr

variable {ε α β σ ρ : Type}

def LoopStep.Ends (next leave : σ → Prop) (ret : ρ → Prop) : LoopStep σ ρ → Prop
  | .next s => next s
  | .leave s => leave s
  | .ret r => ret r

/-- `while cond { body }`; `stuck` is the error of a run longer than the fuel. The result is the
state after the loop, or the value the body returned. -/
def whileLoop (stuck : ε) (cond : σ → Bool) (body : σ → Except ε (LoopStep σ ρ)) :
    Nat → σ → Except ε (σ ⊕ ρ)
  | 0, _ => .error stuck
  | fuel + 1, s =>
    if cond s then do
      match ← body s with
      | .next s' => whileLoop stuck cond body fuel s'
      | .leave s' => pure (.inl s')
      | .ret r => pure (.inr r)
    else pure (.inl s)

def forRange (body : Nat → σ → Except ε (LoopStep σ ρ)) : Nat → Nat → σ → Except ε (σ ⊕ ρ)
  | _, 0, s => pure (.inl s)
  | start, count + 1, s => do
      match ← body start s with
      | .next s' => forRange body (start + 1) count s'
      | .leave s' => pure (.inl s')
      | .ret r => pure (.inr r)

/-- The computation ends with a value that has `post`, or with an error that is allowed. -/
def Meets (allowed : ε → Prop) (m : Except ε α) (post : α → Prop) : Prop :=
  match m with
  | .ok a => post a
  | .error e => allowed e

namespace Meets

variable {allowed : ε → Prop} {m : Except ε α} {f : α → Except ε β} {post : α → Prop}
  {post' : β → Prop} {a : α}

theorem pure (ha : post a) : Meets allowed (Pure.pure a) post :=
  ha

theorem mono (hm : Meets allowed m post) {post₂ : α → Prop} (himp : ∀ a, post a → post₂ a) :
    Meets allowed m post₂ := by
  cases m with
  | ok a => exact himp a hm
  | error e => exact hm

theorem bind_of_eq (hm : Meets allowed m post)
    (hf : ∀ a, m = .ok a → post a → Meets allowed (f a) post') : Meets allowed (m >>= f) post' := by
  cases m with
  | ok a => exact hf a rfl hm
  | error e => exact hm

theorem bind (hm : Meets allowed m post) (hf : ∀ a, post a → Meets allowed (f a) post') :
    Meets allowed (m >>= f) post' :=
  hm.bind_of_eq fun a _ => hf a

theorem next (hm : Meets allowed m (· = a)) (hf : Meets allowed (f a) post') :
    Meets allowed (m >>= f) post' :=
  hm.bind fun _ ha => ha ▸ hf

theorem seq (mid : α → Prop) (hm : Meets allowed m mid)
    (hf : ∀ a, mid a → Meets allowed (f a) post') : Meets allowed (m >>= f) post' :=
  hm.bind hf

theorem of_bind (hbind : Meets allowed (m >>= f) post') :
    Meets allowed m (fun a => Meets allowed (f a) post') := by
  cases m with
  | ok a => exact hbind
  | error e => exact hbind

theorem eq_ok (hm : Meets (fun _ => False) m (· = a)) : m = .ok a := by
  cases m with
  | ok b => exact congrArg Except.ok hm
  | error e => exact hm.elim

theorem of_eq_ok (heq : m = .ok a) (ha : post a) : Meets allowed m post := by
  rw [heq]
  exact ha

end Meets

def Returns (m : Except ε α) : Prop := ∃ a, m = .ok a

theorem returns_ok (a : α) : Returns (.ok a : Except ε α) := ⟨a, rfl⟩

theorem returns_pure (a : α) : Returns (pure a : Except ε α) := ⟨a, rfl⟩

theorem not_returns_error (e : ε) : ¬ Returns (.error e : Except ε α) := nofun

theorem returns_bind_iff {m : Except ε α} {f : α → Except ε β} :
    Returns (m >>= f) ↔ ∃ a, m = .ok a ∧ Returns (f a) := by
  cases m with
  | error e => exact ⟨fun h => (not_returns_error e h).elim, nofun⟩
  | ok a =>
    constructor
    · exact fun hf => ⟨a, rfl, hf⟩
    · rintro ⟨b, hb, hf⟩
      cases hb
      exact hf

theorem bind_eq_ok_iff {m : Except ε α} {f : α → Except ε β} {b : β} :
    m >>= f = .ok b ↔ ∃ a, m = .ok a ∧ f a = .ok b := by
  cases m with
  | error e => exact ⟨nofun, nofun⟩
  | ok a =>
    constructor
    · exact fun hf => ⟨a, rfl, hf⟩
    · rintro ⟨c, hc, hf⟩
      cases hc
      exact hf

theorem returns_bind_iff_forall {m : Except ε α} {f : α → Except ε β} :
    Returns (m >>= f) ↔ Returns m ∧ ∀ a, m = .ok a → Returns (f a) := by
  rw [returns_bind_iff]
  constructor
  · rintro ⟨a, ha, hf⟩
    exact ⟨⟨a, ha⟩, fun b hb => Except.ok.inj (ha.symm.trans hb) ▸ hf⟩
  · rintro ⟨⟨a, ha⟩, hf⟩
    exact ⟨a, ha, hf a ha⟩

theorem returns_bind_pure_iff {m : Except ε α} {f : α → β} :
    Returns (m >>= fun a => pure (f a)) ↔ Returns m := by
  rw [returns_bind_iff]
  exact exists_congr fun a => and_iff_left (returns_pure _)

theorem returns_ite_iff {c : Prop} [Decidable c] {m n : Except ε α} :
    Returns (if c then m else n) ↔ (c → Returns m) ∧ (¬ c → Returns n) := by
  split_ifs with hc <;> simp [hc]

theorem returns_iff_meets {m : Except ε α} :
    Returns m ↔ Meets (fun _ => False) m (fun _ => True) := by
  cases m with
  | ok a => exact iff_of_true (returns_ok a) trivial
  | error e => exact iff_of_false (not_returns_error e) id

/-- The states in which a `whileLoop` started in `s` evaluates its condition. -/
inductive Visits (cond : σ → Bool) (body : σ → Except ε (LoopStep σ ρ)) : σ → σ → Prop where
  | start (s : σ) : Visits cond body s s
  | next {s t u : σ} (hvisit : Visits cond body s t) (hcond : cond t = true)
      (hbody : body t = .ok (.next u)) : Visits cond body s u

namespace Visits

variable {cond : σ → Bool} {body : σ → Except ε (LoopStep σ ρ)}

theorem head {s t u : σ} (hcond : cond s = true) (hbody : body s = .ok (.next t))
    (hvisit : Visits cond body t u) : Visits cond body s u := by
  induction hvisit with
  | start => exact .next (.start s) hcond hbody
  | next _ hcond' hbody' ih => exact .next ih hcond' hbody'

theorem cases_head {s u : σ} (hvisit : Visits cond body s u) :
    s = u ∨ ∃ t, cond s = true ∧ body s = .ok (.next t) ∧ Visits cond body t u := by
  induction hvisit with
  | start => exact .inl rfl
  | next _ hcond hbody ih =>
    rcases ih with rfl | ⟨t, hcond', hbody', hvisit⟩
    · exact .inr ⟨_, hcond, hbody, .start _⟩
    · exact .inr ⟨t, hcond', hbody', .next hvisit hcond hbody⟩

end Visits

section Rules

variable {allowed : ε → Prop} {stuck : ε} {cond : σ → Bool} {body : σ → Except ε (LoopStep σ ρ)}
  {leave : σ → Prop} {ret : ρ → Prop}

variable {fuel : Nat} {s t : σ}

theorem whileLoop_next (hcond : cond s = true) (hbody : body s = .ok (.next t)) :
    whileLoop stuck cond body (fuel + 1) s = whileLoop stuck cond body fuel t := by
  rw [whileLoop, if_pos hcond, hbody]
  rfl

theorem whileLoop_leave (hcond : cond s = true) (hbody : body s = .ok (.leave t)) :
    whileLoop stuck cond body (fuel + 1) s = .ok (.inl t) := by
  rw [whileLoop, if_pos hcond, hbody]
  rfl

/-- A loop whose body keeps `inv` and lowers `measure` from every state the loop visits runs to its
end, given fuel for the measure. -/
theorem meets_whileLoop (measure : σ → Nat) (inv : σ → Prop) {s : σ} (hinv : inv s)
    (hfuel : measure s < fuel) (hleave : ∀ t, inv t → cond t = false → leave t)
    (hbody : ∀ t, Visits cond body s t → inv t → cond t = true → Meets allowed (body t)
      (LoopStep.Ends (fun u => inv u ∧ measure u < measure t) leave ret)) :
    Meets allowed (whileLoop stuck cond body fuel s) (Sum.elim leave ret) := by
  induction fuel generalizing s with
  | zero => omega
  | succ fuel ih =>
    rw [whileLoop]
    split
    case isFalse hcond => exact hleave s hinv (by simpa using hcond)
    case isTrue hcond =>
        have hstep := hbody s (.start s) hinv hcond
        cases hresult : body s with
        | error e =>
          rw [hresult] at hstep
          exact hstep
        | ok flow =>
          rw [hresult] at hstep
          cases flow with
          | next u =>
            refine ih hstep.1 (by have := hstep.2; omega) fun t hvisit => ?_
            exact hbody t (.head hcond hresult hvisit)
          | leave u => exact hstep
          | ret r => exact hstep

theorem meets_whileLoop_of_stuck (hstuck : allowed stuck) (inv : σ → Prop) {s : σ} (hinv : inv s)
    (hleave : ∀ t, inv t → cond t = false → leave t)
    (hbody : ∀ t, inv t → cond t = true → Meets allowed (body t) (LoopStep.Ends inv leave ret)) :
    Meets allowed (whileLoop stuck cond body fuel s) (Sum.elim leave ret) := by
  induction fuel generalizing s with
  | zero => exact hstuck
  | succ fuel ih =>
    rw [whileLoop]
    split
    case isFalse hcond => exact hleave s hinv (by simpa using hcond)
    case isTrue hcond =>
        refine (hbody s hinv hcond).bind fun flow hflow => ?_
        cases flow with
        | next t => exact ih hflow
        | leave t => exact hflow
        | ret r => exact hflow

theorem Meets.of_visits {post : σ ⊕ ρ → Prop} (hstuck : ¬ allowed stuck)
    (hloop : Meets allowed (whileLoop stuck cond body fuel s) post)
    (hvisit : Visits cond body s t) (hcond : cond t = true) :
    Meets allowed (body t) (fun _ => True) := by
  induction fuel generalizing s with
  | zero => exact absurd hloop hstuck
  | succ fuel ih =>
    rcases hvisit.cases_head with rfl | ⟨u, hcond', hbody, hvisit'⟩
    · rw [whileLoop, if_pos hcond] at hloop
      exact hloop.of_bind.mono fun _ _ => trivial
    · rw [whileLoop_next hcond' hbody] at hloop
      exact ih hloop hvisit'

theorem returns_whileLoop_iff (measure : σ → Nat) {s : σ} (hfuel : measure s < fuel)
    (hmeasure : ∀ t u, Visits cond body s t → cond t = true → body t = .ok (.next u) →
      measure u < measure t) : Returns (whileLoop stuck cond body fuel s) ↔
      ∀ t, Visits cond body s t → cond t = true → Returns (body t) := by
  simp only [returns_iff_meets]
  constructor
  · exact fun hloop t => hloop.of_visits id
  intro hbody
  have hmeets : Meets (fun _ => False) (whileLoop stuck cond body fuel s)
      (Sum.elim (fun _ => True) fun _ => True) := by
    refine meets_whileLoop measure (fun _ => True) trivial hfuel (fun _ _ _ => trivial) ?_
    intro t hvisit _ hcond
    have hstep := hbody t hvisit hcond
    cases hresult : body t with
    | error e =>
      rw [hresult] at hstep
      exact hstep
    | ok flow =>
      cases flow with
      | next u => exact ⟨trivial, hmeasure t u hvisit hcond hresult⟩
      | leave u => trivial
      | ret r => trivial
  exact hmeets.mono fun _ _ => trivial

theorem forRange_leave {body : Nat → σ → Except ε (LoopStep σ ρ)} {start count : Nat}
    (hbody : body start s = .ok (.leave t)) : forRange body start (count + 1) s = .ok (.inl t) := by
  rw [forRange, hbody]
  rfl

theorem meets_forRange {body : Nat → σ → Except ε (LoopStep σ ρ)} (inv : Nat → σ → Prop)
    {start count : Nat} {s : σ} (hinv : inv start s) (hleave : ∀ t, inv (start + count) t → leave t)
    (hbody : ∀ i t, start ≤ i → i < start + count → inv i t →
      Meets allowed (body i t) (LoopStep.Ends (inv (i + 1)) leave ret)) :
    Meets allowed (forRange body start count s) (Sum.elim leave ret) := by
  induction count generalizing start s with
  | zero => exact hleave s hinv
  | succ count ih =>
    rw [forRange]
    refine (hbody start s (Nat.le_refl _) (by omega) hinv).bind fun flow hflow => ?_
    cases flow with
    | next t =>
      refine ih hflow (fun u hu => hleave u ?_) fun i u hlow hhigh => ?_
      · rwa [show start + (count + 1) = start + 1 + count by omega]
      · exact hbody i u (by omega) (by omega)
    | leave t => exact hflow
    | ret r => exact hflow

end Rules

end Mwemu.Lib
