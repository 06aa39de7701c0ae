import Mwemu.Macos.SyncSafety

/-!
# Interleaved synchronisation calls

Threads that can run call the functions in any order, and between two calls anything may happen that
leaves the owners' words of the lock objects as they are and puts no thread to sleep on a lock or a
condition. At every point of every such run nobody waits for a free lock, and a release with waiters
hands the lock to one of them. A lock has one holder as long as only holders release it: a normal
mutex and an unfair lock can be released by any thread.
-/

namespace Mwemu.Macos

open Mwemu.Lib Mwemu.Threading List Option

variable {L : Locks} {e e' : Emu} {l : Lock}

/-! ### Releases -/

/-- One waiter owns the lock and can run, its call having returned 0; the other waiters wait. -/
def Hands (l : Lock) (e e' : Emu) : Prop :=
  ∃ (i : Nat) (t : ThreadContext), e.threads[i]? = some t ∧ t.blockedOnLock = some l.addr ∧
    l.owner e'.maps = l.tag t.id ∧
    (∃ t' : ThreadContext, e'.threads[i]? = some t' ∧ t'.isRunnable e'.tick = true ∧
      t'.regs.x 0 = 0) ∧
    ∀ (j : Nat) (u : ThreadContext), j ≠ i → e.threads[j]? = some u →
      u.blockedOnLock = some l.addr → e'.threads[j]? = some u

theorem Hands.modifyThread (hhands : Hands l e e') {k : Nat}
    (hk : ∀ t, e.threads[k]? = some t → t.blockedOnLock ≠ some l.addr)
    (f : ThreadContext → ThreadContext) : Hands l e (e'.modifyThread k f) := by
  obtain ⟨i, t, hget, hwaits, howner, ⟨t', hget', hrun, hret⟩, hothers⟩ := hhands
  have hki : k ≠ i := fun hki => hk t (hki ▸ hget) hwaits
  refine ⟨i, t, hget, hwaits, howner, ⟨t', ?_, hrun, hret⟩, fun j u hj hu hblocked => ?_⟩
  · rw [Emu.getElem?_modifyThread, hget', map_some, if_neg hki]
  · have hkj : k ≠ j := fun hkj => hk u (hkj ▸ hu) hblocked
    rw [Emu.getElem?_modifyThread, hothers j u hj hu hblocked, map_some, if_neg hkj]

theorem Released.hands (hinv : SyncInv L e) (hreleased : Released L l e e')
    (hwaits : ∃ t ∈ e.threads, t.blockedOnLock = some l.addr) : Hands l e e' := by
  cases hreleased with
  | cleared m' hnone hsets heq =>
    obtain ⟨t, ht, hblocked⟩ := hwaits
    exact (hnone t ht hblocked).elim
  | passed i t m' hget hblocked hsets heq =>
    subst heq
    have hok := hinv.threads t (mem_of_getElem? hget)
    have hwaiting : t.blockedOnLock ≠ none := hblocked ▸ some_ne_none _
    have hcond : t.condWait = none := hok.alone.resolve_left hwaiting
    have hidle := ThreadContext.isRunnable_iff.mp (hok.idle (.inl hwaiting))
    refine ⟨i, t, hget, hblocked, hsets.owner, ⟨{ t with blockedOnLock := none }.setRet 0, ?_,
      ThreadContext.isRunnable_iff.mpr ?_, ?_⟩, fun j u hj hu _ => ?_⟩
    · rw [Emu.wake, Emu.getElem?_modifyThread, show (e.withMaps m').threads[i]? = _ from hget,
        map_some, if_pos rfl]
    · exact ⟨hidle.1, hidle.2.1, hidle.2.2.1, hidle.2.2.2.1, hidle.2.2.2.2.1, rfl, hcond⟩
    · exact Function.update_self 0 0 t.regs.x
    · rw [Emu.wake, Emu.getElem?_modifyThread, show (e.withMaps m').threads[j]? = _ from hu,
        map_some, if_neg (Ne.symm hj)]

section Calls

variable {c : SyncCall} (hinv : SyncInv L e) (hrun : e.current.isRunnable e.tick = true)
include hinv hrun

theorem SyncInv.ends (hon : c.On L) : Ends L e c := by
  cases c with
  | mutexLock m => exact ends_mutexLock hinv hrun hon
  | mutexTrylock m => exact ends_mutexTrylock hinv hon
  | mutexUnlock m => exact ends_mutexUnlock hinv hon
  | condWait c m => exact ends_condWait hinv hrun hon
  | condTimedwait m abstime now => exact ends_condTimedwait hinv hrun hon
  | condWake c all => exact ends_condWake hinv c all
  | unfairLock lock => exact ends_unfairLock hinv hrun hon
  | unfairTrylock lock => exact ends_unfairTrylock hinv hon
  | unfairUnlock lock => exact ends_unfairUnlock hinv hon

theorem SyncInv.hands (hon : c.On L) (hreleases : c.Releases e l)
    (hwaits : ∃ t ∈ e.threads, t.blockedOnLock = some l.addr) :
    ∃ e', c.exec e = some e' ∧ Hands l e e' := by
  -- the caller is not among the waiters
  have hcaller : ∀ t, e.threads[e.currentThreadId]? = some t → t.blockedOnLock ≠ some l.addr := by
    intro t ht hblocked
    obtain rfl := Option.some.inj (e.getElem?_current.symm.trans ht)
    rw [(ThreadContext.isRunnable_iff.mp hrun).2.2.2.2.2.1] at hblocked
    cases hblocked
  cases c with
  | mutexLock | mutexTrylock | condWake | unfairLock | unfairTrylock => exact hreleases.elim
  | mutexUnlock m =>
    obtain ⟨rfl, hallowed, hcount⟩ := hreleases
    obtain ⟨e', hrelease, hreleased⟩ := mutexRelease_released hinv hon
    refine ⟨e'.setRet 0, ?_, ?_⟩
    · have hnot : ¬(e.mutexOwner m ≠ e.currentTid ∧ e.mutexKind m ≠ normal) := fun hboth =>
        hallowed.elim hboth.1 hboth.2
      rw [SyncCall.exec, Emu.apiMutexUnlock, if_neg hnot]
      dsimp only
      rw [if_neg (Nat.not_lt.mpr hcount), hrelease]
      rfl
    · rw [Emu.setRet, hreleased.tick_eq.2]
      exact (hreleased.hands hinv hwaits).modifyThread hcaller _
  | condWait c m =>
    obtain ⟨rfl, howner⟩ := hreleases
    rcases releaseForWait_cases hinv hon with ⟨hne, -⟩ | ⟨-, e', hrelease, hreleased⟩
    · exact (hne howner).elim
    · refine ⟨_, by rw [SyncCall.exec, Emu.apiCondWait, hrelease]; rfl, ?_⟩
      rw [hreleased.tick_eq.2]
      exact (hreleased.hands hinv hwaits).modifyThread hcaller _
  | condTimedwait m abstime now =>
    obtain ⟨rfl, howner, habstime⟩ := hreleases
    rcases releaseForWait_cases hinv hon with ⟨hne, -⟩ | ⟨-, e', hrelease, hreleased⟩
    · exact (hne howner).elim
    have hhands := hreleased.hands hinv hwaits
    -- the lock has a new owner, so that the caller has to wait for it
    have howned : e'.mutexOwner m ≠ 0 := by
      obtain ⟨i, t, hget, -, howner', -⟩ := hhands
      have hid := (hinv.ids.id_bounds (mem_of_getElem? hget)).1
      rw [show e'.mutexOwner m = t.id from howner']
      omega
    refine ⟨e'.blockOnLock m, ?_, ?_⟩
    · rw [SyncCall.exec, Emu.apiCondTimedwait, hrelease, bind_eq_bind, bind_some]
      dsimp only
      rw [if_pos rfl, addU64, if_pos habstime, bind_eq_bind, bind_some, if_neg howned]
      rfl
    · rw [Emu.blockOnLock, hreleased.tick_eq.2]
      exact hhands.modifyThread hcaller _
  | unfairUnlock lock =>
    obtain rfl := hreleases
    obtain ⟨e', hunlock, hreleased⟩ := unfairUnlock_released hinv hon
    exact ⟨e', hunlock, hreleased.hands hinv hwaits⟩

end Calls

/-! ### Runs -/

/-- A step of a run: a call by a thread, or something else that leads to a state. -/
inductive SyncStep where
  | call (t : Nat) (c : SyncCall)
  | other (e' : Emu)

instance (e : Emu) (l : Lock) (c : SyncCall) : Decidable (c.Releases e l) := by
  cases c <;> unfold SyncCall.Releases <;> infer_instance

instance (e' : Emu) (l : Lock) (c : SyncCall) : Decidable (c.Took e' l) := by
  cases c <;> unfold SyncCall.Took <;> infer_instance

/-- The threads that hold a lock after a call, by the calls alone: the caller if it has come back
with the lock, and a thread whose wait for it is over. -/
def SyncCall.holders (e e' : Emu) (held : Lock → Nat → Bool) (c : SyncCall) (l : Lock) (i : Nat) :
    Bool :=
  if i = e.currentThreadId then held l i && !decide (c.Releases e l) || decide (c.Took e' l)
  else held l i || decide ((e.threads[i]?).bind wants = some l.addr ∧
    (e'.threads[i]?).bind wants = none)

/-- A state with the threads that hold each lock by the calls so far. -/
structure History where
  emu : Emu
  held : Lock → Nat → Bool

def History.start (e : Emu) : History := ⟨e, fun _ _ => false⟩

def History.step (h : History) : SyncStep → Option History
  | .call t c =>
    if ht : t < h.emu.threads.length then
      (c.exec (h.emu.switchTo t ht)).map fun e' =>
        ⟨e', c.holders (h.emu.switchTo t ht) e' h.held⟩
    else none
  | .other e' => some ⟨e', h.held⟩

/-- Whoever releases a lock holds it. -/
def History.ByHolder (L : Locks) (h : History) : SyncStep → Prop
  | .call t c => ∀ ht : t < h.emu.threads.length, ∀ l ∈ L.locks,
      c.Releases (h.emu.switchTo t ht) l → h.held l t = true
  | .other _ => True

instance (h : History) (s : SyncStep) : Decidable (h.ByHolder L s) := by
  cases s <;> unfold History.ByHolder <;> infer_instance

structure Elsewhere (L : Locks) (e e' : Emu) : Prop where
  keeps : Keeps L e.maps e'.maps
  ids : Ids e'.threads
  length_le : e.threads.length ≤ e'.threads.length
  tick_le : e.tick ≤ e'.tick
  waiting : ∀ t ∈ e'.threads, t.blockedOnLock ≠ none ∨ t.condWait ≠ none → t ∈ e.threads

/-- Calls are made by threads that can run, on lock objects of the right kind. -/
def SyncStep.Legal (L : Locks) (e : Emu) : SyncStep → Prop
  | .call t c => c.On L ∧ ∃ ht : t < e.threads.length,
      (e.switchTo t ht).current.isRunnable e.tick = true
  | .other e' => Elsewhere L e e'

structure SyncStart (L : Locks) (e : Emu) : Prop where
  valid : Valid L e.maps
  free : ∀ l ∈ L.locks, l.owner e.maps = 0
  ids : Ids e.threads
  idle : ∀ t ∈ e.threads, t.blockedOnLock = none ∧ t.condWait = none

variable {owner : Lock → Nat} {tick : Nat} {t : ThreadContext}

theorem ThreadOk.of_idle (hlock : t.blockedOnLock = none) (hcond : t.condWait = none) :
    ThreadOk L owner tick t := by
  refine ⟨fun a ha => ?_, fun c a ha => ?_, .inl hlock, fun hor => ?_⟩
  · rw [hlock] at ha
    cases ha
  · rw [hcond] at ha
    cases ha
  · exact (hor.elim (· hlock) (· hcond)).elim

theorem SyncStart.inv (hstart : SyncStart L e) : SyncInv L e where
  valid := hstart.valid
  ids := hstart.ids
  threads t ht := .of_idle (hstart.idle t ht).1 (hstart.idle t ht).2
  owned l hl howner := (howner (hstart.free l hl)).elim

theorem ThreadOk.later {tick' : Nat} (hok : ThreadOk L owner tick t) (hle : tick ≤ tick') :
    ThreadOk L owner tick' t := by
  refine ⟨hok.lock, hok.cond, hok.alone, fun hor => ThreadContext.isRunnable_iff.mpr ?_⟩
  have hidle := ThreadContext.isRunnable_iff.mp (hok.idle hor)
  exact ⟨hidle.1, hidle.2.1.trans hle, hidle.2.2⟩

theorem SyncInv.elsewhere (hinv : SyncInv L e) (helse : Elsewhere L e e') : SyncInv L e' := by
  refine ⟨helse.keeps.valid, helse.ids, fun t ht => ?_, fun l hl howner => ?_⟩
  · by_cases hor : t.blockedOnLock ≠ none ∨ t.condWait ≠ none
    · refine ((hinv.threads t (helse.waiting t ht hor)).later helse.tick_le).mono ?_
      exact fun l hl _ hne => (helse.keeps.owners l hl).symm ▸ hne
    · rw [not_or, not_not, not_not] at hor
      exact .of_idle hor.1 hor.2
  -- the owner is still there, under the same index
  rw [helse.keeps.owners l hl] at howner ⊢
  obtain ⟨t, ht, htag⟩ := mem_map.mp (hinv.owned l hl howner)
  obtain ⟨i, hi⟩ := List.getElem?_of_mem ht
  have hlt := (List.getElem?_eq_some_iff.mp hi).1.trans_le helse.length_le
  obtain ⟨t', ht'⟩ : ∃ t', e'.threads[i]? = some t' := ⟨_, List.getElem?_eq_getElem hlt⟩
  refine mem_map.mpr ⟨t', mem_of_getElem? ht', ?_⟩
  rw [← htag, helse.ids.id_eq ht', hinv.ids.id_eq hi]

theorem SyncInv.switchTo (hinv : SyncInv L e) {t : Nat} (ht : t < e.threads.length) :
    SyncInv L (e.switchTo t ht) :=
  ⟨hinv.valid, hinv.ids, hinv.threads, hinv.owned⟩

variable {h h' : History} {s : SyncStep}

theorem SyncInv.fair (hinv : SyncInv L h.emu) {t : Nat} {c : SyncCall}
    (hlegal : (SyncStep.call t c).Legal L h.emu) (hstep : h.step (.call t c) = some h') :
    ∃ ht : t < h.emu.threads.length, Fair L (h.emu.switchTo t ht) c h'.emu ∧
      h'.held = c.holders (h.emu.switchTo t ht) h'.emu h.held := by
  obtain ⟨hon, ht, hrun⟩ := hlegal
  rw [History.step, dif_pos ht, Option.map_eq_some_iff] at hstep
  obtain ⟨e', hexec, rfl⟩ := hstep
  rcases (hinv.switchTo ht).ends hrun hon with ⟨hnone, -⟩ | ⟨e'', hsome, hfair⟩
  · rw [hnone] at hexec
    cases hexec
  · obtain rfl := Option.some.inj (hsome.symm.trans hexec)
    exact ⟨ht, hfair, rfl⟩

theorem SyncInv.step (hinv : SyncInv L h.emu) (hlegal : s.Legal L h.emu)
    (hstep : h.step s = some h') : SyncInv L h'.emu := by
  cases s with
  | call t c =>
    obtain ⟨ht, hfair, -⟩ := hinv.fair hlegal hstep
    exact hfair.inv
  | other e' =>
    cases hstep
    exact hinv.elsewhere hlegal

/-! ### Holders -/

/-- The owner's word of a lock that is held names the holder. -/
def Named (L : Locks) (h : History) : Prop :=
  ∀ l ∈ L.locks, ∀ i, h.held l i = true → l.owner h.emu.maps = 0x1000 + i

theorem Ids.tag_index (hids : Ids e.threads) {i : Nat} {t : ThreadContext}
    (ht : e.threads[i]? = some t) (l : Lock) : l.tag (0x1000 + i) = 0x1000 + i := by
  rw [← hids.id_eq ht, hids.tag_eq (mem_of_getElem? ht)]

theorem Fair.named {c : SyncCall} {held : Lock → Nat → Bool} (hids : Ids e.threads)
    (hfair : Fair L e c e') (hnamed : Named L ⟨e, held⟩)
    (hholder : ∀ l ∈ L.locks, c.Releases e l → held l e.currentThreadId = true) :
    Named L ⟨e', c.holders e e' held⟩ := by
  intro l hl i hheld
  -- an owner that does not release its lock keeps it
  have hkept (hheld : held l i = true) (hnot : ¬c.Releases e l) :
      l.owner e'.maps = 0x1000 + i := by
    have howner : l.owner e.maps = 0x1000 + i := hnamed l hl i hheld
    exact ((hfair.moves.owners l hl (by omega)).resolve_left hnot).trans howner
  dsimp only [SyncCall.holders] at hheld
  split at hheld
  · next hi =>
    rw [Bool.or_eq_true, Bool.and_eq_true, Bool.not_eq_true', decide_eq_false_iff_not,
      decide_eq_true_eq] at hheld
    rcases hheld with ⟨hheld, hnot⟩ | htook
    · exact hkept hheld hnot
    · subst hi
      refine (hfair.took l htook).trans ?_
      rw [← hids.tag_index e.getElem?_current l, Emu.currentTid, hids.id_eq e.getElem?_current]
  · next hi =>
    rw [Bool.or_eq_true, decide_eq_true_eq] at hheld
    rcases hheld with hheld | ⟨hwanted, hgot⟩
    · refine hkept hheld fun hreleases => hi ?_
      have howner := (hnamed l hl i hheld).symm.trans (hnamed l hl _ (hholder l hl hreleases))
      omega
    · obtain ⟨u, hu, hwants⟩ := bind_eq_some_iff.mp hwanted
      obtain ⟨u', hu', hcases⟩ := hfair.moves.others i hi u hu
      rw [hu', bind_some] at hgot
      rcases hcases with hsame | ⟨-, howner⟩
      · cases hgot.symm.trans (hsame.trans hwants)
      · rw [howner l hl hwants, hids.tag_index hu l]

theorem Named.step (hinv : SyncInv L h.emu) (hnamed : Named L h) (hlegal : s.Legal L h.emu)
    (hholder : h.ByHolder L s) (hstep : h.step s = some h') : Named L h' := by
  cases s with
  | call t c =>
    obtain ⟨ht, hfair, hheld⟩ := hinv.fair hlegal hstep
    have hnamed' := hfair.named (hinv.switchTo ht).ids hnamed (hholder ht)
    rwa [← hheld] at hnamed'
  | other e' =>
    cases hstep
    exact fun l hl i hheld => (hlegal.keeps.owners l hl).trans (hnamed l hl i hheld)

/-! ### Safety -/

/-- Nobody waits for a free lock, an owner's word names a thread, and a thread waits for one
thing. -/
structure SyncSafe (L : Locks) (e : Emu) : Prop where
  owned : ∀ t ∈ e.threads, ∀ a, t.blockedOnLock = some a →
    ∃ l ∈ L.locks, l.addr = a ∧ l.owner e.maps ≠ 0
  named : ∀ l ∈ L.locks, l.owner e.maps ≠ 0 → ∃ t ∈ e.threads, l.tag t.id = l.owner e.maps
  alone : ∀ t ∈ e.threads,
    [t.joining.isSome, t.blockedOnLock.isSome, t.condWait.isSome].count true ≤ 1

theorem ThreadOk.count_le (hok : ThreadOk L owner tick t) :
    [t.joining.isSome, t.blockedOnLock.isSome, t.condWait.isSome].count true ≤ 1 := by
  by_cases hor : t.blockedOnLock ≠ none ∨ t.condWait ≠ none
  · have hjoining : t.joining = none := (ThreadContext.isRunnable_iff.mp (hok.idle hor)).2.2.2.2.1
    rcases hok.alone with hnone | hnone
    · rw [hjoining, hnone]
      cases t.condWait.isSome <;> decide
    · rw [hjoining, hnone]
      cases t.blockedOnLock.isSome <;> decide
  · rw [not_or, not_not, not_not] at hor
    rw [hor.1, hor.2]
    cases t.joining.isSome <;> decide

theorem SyncInv.safe (hinv : SyncInv L e) : SyncSafe L e :=
  ⟨fun t ht => (hinv.threads t ht).lock, fun l hl howner => mem_map.mp (hinv.owned l hl howner),
    fun t ht => (hinv.threads t ht).count_le⟩

/-- The call returns, unless a sum overflows, and hands over a lock that it releases. -/
def SyncCall.Meets (e : Emu) (c : SyncCall) : Prop :=
  (c.exec e = none → c.Overflows e) ∧
    ∀ l, c.Releases e l → (∃ t ∈ e.threads, t.blockedOnLock = some l.addr) →
      ∃ e', c.exec e = some e' ∧ Hands l e e'

section Along

variable {h₀ : History} {steps : List SyncStep}

theorem SyncInv.along (hinv : SyncInv L h₀.emu)
    (hlegal : Along History.step (fun h s => s.Legal L h.emu) h₀ steps)
    (hrun : run History.step h₀ steps = some h) : SyncInv L h.emu :=
  run_preserves (fun h => SyncInv L h.emu) (fun _ _ _ hinv hlegal hstep => hinv.step hlegal hstep)
    hinv hlegal hrun

theorem Named.along (hinv : SyncInv L h₀.emu) (hnamed : Named L h₀)
    (hlegal : Along History.step (fun h s => s.Legal L h.emu) h₀ steps)
    (hholder : Along History.step (History.ByHolder L) h₀ steps)
    (hrun : run History.step h₀ steps = some h) : Named L h := by
  refine (run_preserves (fun h => SyncInv L h.emu ∧ Named L h) ?_ ⟨hinv, hnamed⟩
    (hlegal.and hholder) hrun).2
  intro h s h' hboth hcond hstep
  exact ⟨hboth.1.step hcond.1 hstep, hboth.2.step hboth.1 hcond.1 hcond.2 hstep⟩

end Along

/-- At every point of every run from free locks: nobody waits for a lock without an owner, a thread
waits for one thing at most, and whatever call a thread that can run makes next, a lock that it
releases goes to exactly one waiter, which can then run with result 0. If in addition all releases
were made by holders, a lock is held by one thread at most, the one in its owner's word. -/
theorem no_lost_wakeups {e₀ : Emu} {h : History} {steps : List SyncStep} (hstart : SyncStart L e₀)
    (hlegal : Along History.step (fun h s => s.Legal L h.emu) (.start e₀) steps)
    (hrun : run History.step (.start e₀) steps = some h) :
    SyncSafe L h.emu ∧ (∀ (t : Nat) (ht : t < h.emu.threads.length) (c : SyncCall), c.On L →
      (h.emu.switchTo t ht).current.isRunnable h.emu.tick = true →
        c.Meets (h.emu.switchTo t ht)) ∧
    (Along History.step (History.ByHolder L) (.start e₀) steps →
      ∀ l ∈ L.locks, ∀ i, h.held l i = true →
        l.owner h.emu.maps = 0x1000 + i ∧ ∀ j, h.held l j = true → j = i) := by
  have hinv : SyncInv L h.emu := hstart.inv.along hlegal hrun
  refine ⟨hinv.safe, fun t ht c hon hrunnable => ⟨fun hnone => ?_, fun l hreleases hwaits => ?_⟩,
    fun hholder l hl i hi => ?_⟩
  · rcases (hinv.switchTo ht).ends hrunnable hon with ⟨-, hoverflows⟩ | ⟨e', hsome, -⟩
    · exact hoverflows
    · rw [hnone] at hsome
      cases hsome
  · exact (hinv.switchTo ht).hands hrunnable hon hreleases hwaits
  · have hnamed : Named L h := by
      refine Named.along hstart.inv (fun _ _ _ hheld => ?_) hlegal hholder hrun
      exact (Bool.false_ne_true hheld).elim
    refine ⟨hnamed l hl i hi, fun j hj => ?_⟩
    have hsame := (hnamed l hl j hj).symm.trans (hnamed l hl i hi)
    omega

/-! Two threads, one of which waits for a mutex that the other one holds. -/

def lockRegion : List Maps.Op := [.createMap "locks" 0x2000 0x40 Maps.readWrite]

theorem lockRegion_admitted :
    Along Maps.Op.step (fun m op => op.InRange m ∧ op.Admitted m) Maps.default lockRegion := by
  decide +kernel

def lockMaps : Maps := (run Maps.Op.step Maps.default lockRegion).get (by decide +kernel)

theorem lockMaps_wf : lockMaps.Wf :=
  Maps.wf_of_run lockRegion_admitted (some_get _).symm

def twoLocks : Locks := ⟨[.mutex 0x2000, .unfair 0x2020], by decide⟩

def twoThreads : Emu where
  maps := lockMaps
  threads := [.new 0x1000, .new 0x1001]
  currentThreadId := 0
  current_lt := by decide
  tick := 0
  enableThreading := true
  processTerminated := false

theorem twoThreads_start : SyncStart twoLocks twoThreads := by
  have hword : ∀ size addr, 0 < size → (lockMaps.peek size addr).isSome = true →
      (lockMaps.writeScalar size addr 0).map Prod.fst = some true → HasWord lockMaps size addr :=
    fun _ _ hsize hread hwrite => hasWord_of_write lockMaps_wf hsize hread hwrite
  refine ⟨⟨lockMaps_wf, fun l hl => ?_, fun a ha => ?_⟩, ?_, ⟨by decide, by decide⟩, by decide⟩
  · simp only [twoLocks, mem_cons, not_mem_nil, or_false] at hl
    rcases hl with rfl | rfl
    · exact hword _ _ (by decide) (by decide +kernel) (by decide +kernel)
    · exact hword _ _ (by decide) (by decide +kernel) (by decide +kernel)
  · obtain rfl : a = 0x2000 := by
      simpa only [twoLocks, mem_cons, not_mem_nil, or_false, Lock.mutex.injEq,
        reduceCtorEq] using ha
    exact hword _ _ (by decide) (by decide +kernel) (by decide +kernel)
  · decide +kernel

/-- A legal call, where it can be evaluated. -/
def SyncStep.Callable (L : Locks) (e : Emu) : SyncStep → Prop
  | .call t c => c.On L ∧ ∃ ht : t < e.threads.length,
      (e.switchTo t ht).current.isRunnable e.tick = true
  | .other _ => False

instance (L : Locks) (c : SyncCall) : Decidable (c.On L) := by
  cases c <;> unfold SyncCall.On <;> infer_instance

instance (e : Emu) (s : SyncStep) : Decidable (s.Callable L e) := by
  cases s <;> unfold SyncStep.Callable <;> infer_instance

theorem SyncStep.Callable.legal (hcall : s.Callable L e) : s.Legal L e := by
  cases s with
  | call t c => exact hcall
  | other e' => exact hcall.elim

def contended : List SyncStep := [.call 0 (.mutexLock 0x2000), .call 1 (.mutexLock 0x2000)]

theorem no_lost_wakeups_contended : ∃ h, run History.step (.start twoThreads) contended = some h ∧
    (∃ t ∈ h.emu.threads, t.blockedOnLock = some 0x2000) ∧ SyncSafe twoLocks h.emu ∧
    (∃ ht : 0 < h.emu.threads.length, (SyncCall.mutexUnlock 0x2000).Meets (h.emu.switchTo 0 ht)) ∧
    h.held (.mutex 0x2000) 0 = true ∧ ∀ j, h.held (.mutex 0x2000) j = true → j = 0 := by
  have hcalls : Along History.step (fun h s => s.Callable twoLocks h.emu) (.start twoThreads)
      contended := by decide +kernel
  have hholder : Along History.step (History.ByHolder twoLocks) (.start twoThreads) contended := by
    decide +kernel
  have hreached : (run History.step (.start twoThreads) contended).any (fun h =>
      (h.emu.threads.any fun t => t.blockedOnLock = some 0x2000) &&
        (decide ((SyncStep.call 0 (.mutexUnlock 0x2000)).Callable twoLocks h.emu) &&
          h.held (.mutex 0x2000) 0)) = true := by
    decide +kernel
  obtain ⟨h, hrun, hall⟩ := (any_eq_true _ _).mp hreached
  rw [Bool.and_eq_true, Bool.and_eq_true, List.any_eq_true] at hall
  obtain ⟨⟨t, ht, hblocked⟩, hcall, hheld⟩ := hall
  obtain ⟨hon, hlt, hcan⟩ := of_decide_eq_true hcall
  obtain ⟨hsafe, hmeets, hunique⟩ :=
    no_lost_wakeups twoThreads_start (hcalls.mono fun _ _ => SyncStep.Callable.legal) hrun
  exact ⟨h, hrun, ⟨t, ht, of_decide_eq_true hblocked⟩, hsafe, ⟨hlt, hmeets 0 hlt _ hon hcan⟩, hheld,
    (hunique hholder _ hon 0 hheld).2⟩

/-- A thread takes a lock, another one releases it and takes it as well. -/
def takenTwice (lock unlock : SyncCall) : List SyncStep :=
  [.call 0 lock, .call 1 unlock, .call 1 lock]

/-- The calls are legal, and both threads hold the lock after them. -/
def HeldTwice (lock unlock : SyncCall) (l : Lock) : Prop :=
  Along History.step (fun h s => s.Callable twoLocks h.emu) (.start twoThreads)
    (takenTwice lock unlock) ∧
  (run History.step (.start twoThreads) (takenTwice lock unlock)).any
    (fun h => h.held l 0 && h.held l 1) = true

instance (lock unlock : SyncCall) (l : Lock) : Decidable (HeldTwice lock unlock l) :=
  inferInstanceAs (Decidable (_ ∧ _))

/-- A normal mutex and an unfair lock have two holders then. -/
theorem released_by_another :
    HeldTwice (.mutexLock 0x2000) (.mutexUnlock 0x2000) (.mutex 0x2000) ∧
      HeldTwice (.unfairLock 0x2020) (.unfairUnlock 0x2020) (.unfair 0x2020) := by
  decide +kernel

/-- Whoever broadcasts, nobody is left waiting for the condition. -/
theorem broadcast_wakes_all {e₀ : Emu} {h : History} {steps : List SyncStep}
    (hstart : SyncStart L e₀)
    (hlegal : Along History.step (fun h s => s.Legal L h.emu) (.start e₀) steps)
    (hrun : run History.step (.start e₀) steps = some h) (t : Nat)
    (ht : t < h.emu.threads.length) (c : Nat) :
    ∃ e', (h.emu.switchTo t ht).apiCondWake c true = some e' ∧ e'.condWaiters c = 0 ∧
      SyncSafe L e' := by
  have hinv : SyncInv L h.emu := hstart.inv.along hlegal hrun
  obtain ⟨-, hoverflows⟩ | ⟨e', hwake, hfair⟩ := ends_condWake (hinv.switchTo ht) c true
  · exact hoverflows.elim
  · exact ⟨e', hwake, condBroadcast_all (hinv.switchTo ht) hwake, hfair.inv.safe⟩

def waiting : List SyncStep := [.call 0 (.mutexLock 0x2000), .call 0 (.condWait 0x2030 0x2000)]

theorem broadcast_wakes_all_waiting : ∃ h, run History.step (.start twoThreads) waiting = some h ∧
    h.emu.condWaiters 0x2030 = 1 ∧ ∃ (ht : 1 < h.emu.threads.length) (e' : Emu),
      (h.emu.switchTo 1 ht).apiCondWake 0x2030 true = some e' ∧ e'.condWaiters 0x2030 = 0 := by
  have hcalls : Along History.step (fun h s => s.Callable twoLocks h.emu) (.start twoThreads)
      waiting := by decide +kernel
  have hreached : (run History.step (.start twoThreads) waiting).any (fun h =>
      decide (h.emu.condWaiters 0x2030 = 1 ∧ 1 < h.emu.threads.length)) = true := by
    decide +kernel
  obtain ⟨h, hrun, hboth⟩ := (any_eq_true _ _).mp hreached
  obtain ⟨hone, ht⟩ := of_decide_eq_true hboth
  obtain ⟨e', hwake, hnobody, -⟩ := broadcast_wakes_all twoThreads_start
    (hcalls.mono fun _ _ => SyncStep.Callable.legal) hrun 1 ht 0x2030
  exact ⟨h, hrun, hone, ht, e', hwake, hnobody⟩

end Mwemu.Macos
