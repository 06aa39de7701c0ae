import Mathlib.Data.List.Nodup
import Mwemu.Lib.Run

/-!
# Critical sections

`GlobalLocks` keeps an owner, a recursion count and a wait queue for each critical section. A run
logs what its calls returned, and the invariant relates the section to the log alone: how often a
thread entered and left, which threads were blocked and which were woken, each in order.
-/

namespace Mwemu.Threading

open Mwemu.Lib List Option

abbrev Tid := UInt64

abbrev CsPtr := UInt64

def usizeMax : Nat := 2 ^ 64 - 1

structure CritState where
  ownerTid : Option Tid
  recursionCount : Nat
  waitQueue : List Tid
  deriving DecidableEq, Repr

namespace CritState

def fresh : CritState := ⟨none, 0, []⟩

/-- `enter` on the section's entry. The recursion count panics when it overflows. -/
def enter (st : CritState) (tid : Tid) : Option (Bool × CritState) :=
  match st.ownerTid with
  | none => some (true, { st with ownerTid := some tid, recursionCount := 1 })
  | some owner =>
    if owner = tid then
      if st.recursionCount < usizeMax then
        some (true, { st with recursionCount := st.recursionCount + 1 })
      else none
    else
      some (false,
        if tid ∈ st.waitQueue then st else { st with waitQueue := st.waitQueue ++ [tid] })

def leave (st : CritState) (tid : Tid) : Option Tid × CritState :=
  if st.ownerTid = some tid then
    if 1 < st.recursionCount then
      (none, { st with recursionCount := st.recursionCount - 1 })
    else
      match st.waitQueue with
      | next :: rest => (some next, ⟨some next, 1, rest⟩)
      | [] => (none, { st with ownerTid := none, recursionCount := 0 })
  else (none, st)

variable {owner : Tid} {queue : List Tid}

theorem leave_of_owned {count : Nat} : (CritState.mk (some owner) count queue).leave owner =
      if 1 < count then (none, ⟨some owner, count - 1, queue⟩) else match queue with
        | next :: rest => (some next, ⟨some next, 1, rest⟩)
        | [] => (none, ⟨none, 0, []⟩) := by
  rw [leave, if_pos rfl]
  split
  · rfl
  · cases queue <;> rfl

def wokenBy : List Tid → CritState → List Tid
  | [], _ => []
  | tid :: tids, st => (st.leave tid).1.toList ++ wokenBy tids (st.leave tid).2

theorem wokenBy_one {tids : List Tid} :
    wokenBy tids ⟨some owner, 1, queue⟩ = wokenBy tids ⟨some owner, 0, queue⟩ := by
  induction tids with
  | nil => rfl
  | cons tid tids ih =>
    by_cases howner : owner = tid
    · subst howner
      simp [wokenBy, leave_of_owned]
    · simp [wokenBy, leave, howner, ih]

variable {tid : Tid}

theorem mem_wokenBy {tids : List Tid} {st : CritState} (hmem : tid ∈ wokenBy tids st) :
    st.ownerTid ≠ none ∧ tid ∈ st.waitQueue := by
  induction tids generalizing st with
  | nil => cases hmem
  | cons head tids ih =>
    obtain ⟨owner, count, queue⟩ := st
    rw [wokenBy] at hmem
    by_cases howner : owner = some head
    · subst howner
      refine ⟨nofun, ?_⟩
      rw [leave_of_owned] at hmem
      split at hmem
      · exact (ih hmem).2
      cases queue with
      | nil => exact (ih hmem).2
      | cons next rest =>
        exact (mem_cons.mp hmem).elim (fun h => h ▸ mem_cons_self)
          fun h => mem_cons_of_mem next (ih h).2
    · rw [leave, if_neg howner] at hmem
      exact ih hmem

theorem exists_wokenBy_of_owner {count : Nat} (hmem : tid ∈ queue) :
    ∃ tids, tid ∈ wokenBy tids ⟨some owner, count, queue⟩ := by
  induction queue generalizing owner count with
  | nil => cases hmem
  | cons next rest ih =>
    -- the inner induction is on the leaves that the owner still owes
    induction count with
    | zero =>
      rcases mem_cons.mp hmem with htid | hrest
      · exact ⟨[owner], htid ▸ by simp [wokenBy, leave_of_owned]⟩
      · obtain ⟨tids, htids⟩ := ih hrest
        exact ⟨owner :: tids, by
          simpa [wokenBy, leave_of_owned] using mem_cons_of_mem next htids⟩
    | succ count hcount =>
      obtain ⟨tids, htids⟩ := hcount
      cases count with
      | zero => exact ⟨tids, by rwa [wokenBy_one]⟩
      | succ count =>
        exact ⟨owner :: tids, by simpa [wokenBy, leave_of_owned] using htids⟩

theorem exists_wokenBy {st : CritState} (howner : st.ownerTid ≠ none) (hmem : tid ∈ st.waitQueue) :
    ∃ tids, tid ∈ wokenBy tids st := by
  obtain ⟨_ | owner, count, queue⟩ := st
  · exact absurd rfl howner
  · exact exists_wokenBy_of_owner hmem

end CritState

structure GlobalLocks where
  critMap : CsPtr → Option CritState

namespace GlobalLocks

def new : GlobalLocks := ⟨fun _ => none⟩

def set (g : GlobalLocks) (cs : CsPtr) (st : CritState) : GlobalLocks :=
  ⟨fun p => if p = cs then some st else g.critMap p⟩

def critState (g : GlobalLocks) (cs : CsPtr) : CritState :=
  (g.critMap cs).getD .fresh

def enter (g : GlobalLocks) (cs : CsPtr) (tid : Tid) : Option (Bool × GlobalLocks) :=
  (((g.critMap cs).getD .fresh).enter tid).map fun (acquired, st) => (acquired, g.set cs st)

def leave (g : GlobalLocks) (cs : CsPtr) (tid : Tid) : Option Tid × GlobalLocks :=
  match g.critMap cs with
  | some st => ((st.leave tid).1, g.set cs (st.leave tid).2)
  | none => (none, g)

theorem critState_set (g : GlobalLocks) (cs cs' : CsPtr) (st : CritState) :
    (g.set cs st).critState cs' = if cs' = cs then st else g.critState cs' := by
  rw [critState, set]
  dsimp only
  split <;> rfl

variable {g : GlobalLocks} {cs : CsPtr}

theorem set_critState {st : CritState} (hst : g.critMap cs = some st) : g.set cs st = g := by
  rw [set, GlobalLocks.mk.injEq]
  funext p
  split
  · next hp => rw [hp, hst]
  · rfl

theorem enter_eq_some {g' : GlobalLocks} {tid : Tid} {acquired : Bool}
    (henter : g.enter cs tid = some (acquired, g')) :
    ∃ st, (g.critState cs).enter tid = some (acquired, st) ∧ g' = g.set cs st := by
  rw [enter, map_eq_some_iff] at henter
  obtain ⟨⟨acquired', st⟩, hst, heq⟩ := henter
  cases heq
  exact ⟨st, hst, rfl⟩

theorem leave_spec (g : GlobalLocks) (cs : CsPtr) (tid : Tid) :
    (g.leave cs tid).1 = ((g.critState cs).leave tid).1 ∧ ∀ cs', (g.leave cs tid).2.critState cs' =
        if cs' = cs then ((g.critState cs).leave tid).2 else g.critState cs' := by
  rw [leave]
  split
  · next st hst =>
    have heq : g.critState cs = st := by rw [critState, hst, getD_some]
    rw [heq]
    exact ⟨rfl, fun cs' => critState_set g cs cs' _⟩
  · next hnone =>
    have heq : g.critState cs = .fresh := by rw [critState, hnone, getD_none]
    rw [heq]
    refine ⟨rfl, fun cs' => ?_⟩
    split
    · next hcs => rw [hcs, heq]; rfl
    · rfl

theorem leave_of_not_owner {tid : Tid} (howner : (g.critState cs).ownerTid ≠ some tid) :
    g.leave cs tid = (none, g) := by
  rw [leave]
  split
  · next st hst =>
    rw [critState, hst, getD_some] at howner
    rw [CritState.leave, if_neg howner, set_critState hst]
  · rfl

end GlobalLocks

/-! ## Runs and their log -/

inductive Op where
  | enter (cs : CsPtr) (tid : Tid)
  | leave (cs : CsPtr) (tid : Tid)

/-- What a call returned; for a leave also whether the thread owned the section. -/
inductive Event where
  | entered (cs : CsPtr) (tid : Tid) (acquired : Bool)
  | left (cs : CsPtr) (tid : Tid) (owned : Bool) (woken : Option Tid)
  deriving DecidableEq, Repr

namespace Event

def cs : Event → CsPtr
  | entered cs _ _ => cs
  | left cs _ _ _ => cs

def enters (cs : CsPtr) (tid : Tid) : Event → Bool
  | entered cs' tid' _ => cs' = cs ∧ tid' = tid
  | left .. => false

def leaves (cs : CsPtr) (tid : Tid) : Event → Bool
  | entered .. => false
  | left cs' tid' owned _ => cs' = cs ∧ tid' = tid ∧ owned

def blocks (cs : CsPtr) : Event → Option Tid
  | entered cs' tid false => if cs' = cs then some tid else none
  | _ => none

def wakes (cs : CsPtr) : Event → Option Tid
  | left cs' _ _ woken => if cs' = cs then woken else none
  | _ => none

end Event

def unmatched (cs : CsPtr) (tid : Tid) (log : List Event) : Nat :=
  log.countP (Event.enters cs tid) - log.countP (Event.leaves cs tid)

def blocked (cs : CsPtr) (log : List Event) : List Tid :=
  log.filterMap (Event.blocks cs)

def woken (cs : CsPtr) (log : List Event) : List Tid :=
  log.filterMap (Event.wakes cs)

structure Session where
  locks : GlobalLocks
  log : List Event

namespace Session

def new : Session := ⟨.new, []⟩

def step (s : Session) : Op → Option Session
  | .enter cs tid => (s.locks.enter cs tid).map fun (acquired, locks) =>
    ⟨locks, s.log ++ [.entered cs tid acquired]⟩
  | .leave cs tid => some ⟨(s.locks.leave cs tid).2, s.log ++
      [.left cs tid ((s.locks.critState cs).ownerTid = some tid) (s.locks.leave cs tid).1]⟩

def NotWaiting (s : Session) : Op → Prop
  | .enter cs tid => tid ∉ (s.locks.critState cs).waitQueue
  | .leave _ _ => True

instance (s : Session) : (op : Op) → Decidable (s.NotWaiting op)
  | .enter cs tid => inferInstanceAs (Decidable (tid ∉ (s.locks.critState cs).waitQueue))
  | .leave _ _ => .isTrue trivial

end Session

/-! ## The invariant of one section -/

namespace CritState

def load (st : CritState) (tid : Tid) : Nat :=
  if st.ownerTid = some tid then st.recursionCount
  else if tid ∈ st.waitQueue then 1 else 0

structure Sound (st : CritState) : Prop where
  free : st.ownerTid = none → st.recursionCount = 0 ∧ st.waitQueue = []
  owned : ∀ tid, st.ownerTid = some tid → 1 ≤ st.recursionCount ∧ tid ∉ st.waitQueue
  nodup : st.waitQueue.Nodup

variable {st st' : CritState} {tid : Tid}

theorem Sound.fresh : CritState.fresh.Sound :=
  ⟨fun _ => ⟨rfl, rfl⟩, nofun, nodup_nil⟩

/-- An enter adds one to what the thread holds or waits for, and queues it just when it is
refused. -/
theorem Sound.enter (hst : st.Sound) (hwait : tid ∉ st.waitQueue) {acquired : Bool}
    (henter : st.enter tid = some (acquired, st')) :
    st'.Sound ∧ st'.waitQueue = st.waitQueue ++ (if acquired then [] else [tid]) ∧
      ∀ t, st'.load t = st.load t + if tid = t then 1 else 0 := by
  rw [CritState.enter] at henter
  cases howner : st.ownerTid with
  | none =>
    obtain ⟨hcount, hempty⟩ := hst.free howner
    rw [howner] at henter
    cases henter
    refine ⟨⟨nofun, fun t _ => ⟨Nat.le_refl _, ?_⟩, hst.nodup⟩, by simp, fun t => ?_⟩
    · simp [hempty]
    · simp [load, howner, hempty]
  | some owner =>
    obtain ⟨hpos, hnotin⟩ := hst.owned owner howner
    simp only [howner, if_neg hwait] at henter
    by_cases hself : owner = tid
    · subst hself
      rw [if_pos rfl] at henter
      split at henter
      · cases henter
        refine ⟨⟨nofun, fun t ht => ?_, hst.nodup⟩, by simp, fun t => ?_⟩
        · exact ⟨Nat.le_add_left _ _, (hst.owned t (howner.trans ht)).2⟩
        · by_cases ht : owner = t <;> simp [load, howner, ht]
      · cases henter
    rw [if_neg hself] at henter
    cases henter
    refine ⟨⟨nofun, fun t ht => ?_, ?_⟩, by simp, fun t => ?_⟩
    · obtain rfl := Option.some.inj ht
      exact ⟨hpos, by simp [hnotin, hself]⟩
    · exact hst.nodup.append (nodup_singleton _) (by simpa using hwait)
    · by_cases ht : tid = t
      · subst ht
        simp [load, howner, hself, hwait]
      · simp [load, howner, ht, Ne.symm ht]

/-- A leave by the owner gives one enter back, and wakes the head of the queue when it was the
last. -/
theorem Sound.leave (hst : st.Sound) (howner : st.ownerTid = some tid) :
    (st.leave tid).2.Sound ∧ st.waitQueue = (st.leave tid).1.toList ++ (st.leave tid).2.waitQueue ∧
      ∀ t, st.load t = (st.leave tid).2.load t + if tid = t then 1 else 0 := by
  obtain ⟨hpos, hnotin⟩ := hst.owned tid howner
  rw [CritState.leave, if_pos howner]
  split
  · next hmany =>
    refine ⟨⟨?_, fun t ht => ⟨?_, (hst.owned t ht).2⟩, hst.nodup⟩, by simp, fun t => ?_⟩
    · rw [howner]
      exact nofun
    · exact Nat.le_sub_one_of_lt hmany
    · by_cases ht : tid = t <;> simp [load, howner, ht]
      omega
  · next hlast =>
    have hone : st.recursionCount = 1 := by omega
    split
    · next head rest hqueue =>
      have hnodup := hst.nodup
      rw [hqueue, nodup_cons] at hnodup
      rw [hqueue, mem_cons, not_or] at hnotin
      refine ⟨⟨nofun, fun t ht => ?_, hnodup.2⟩, hqueue, fun t => ?_⟩
      · obtain rfl := Option.some.inj ht
        exact ⟨Nat.le_refl _, hnodup.1⟩
      by_cases ht : tid = t
      · subst ht
        simp [load, howner, hone, hnotin, Ne.symm hnotin.1]
      · by_cases hhead : head = t
        · simp [load, howner, hqueue, ht, hhead]
        · simp [load, howner, hqueue, ht, hhead, Ne.symm hhead]
    · next hqueue =>
      refine ⟨⟨fun _ => ⟨rfl, hqueue⟩, nofun, hst.nodup⟩, by simp, fun t => ?_⟩
      by_cases ht : tid = t <;> simp [load, howner, hone, hqueue, ht]

theorem leave_woken_of_owner (howner : st.ownerTid = some tid) :
    (st.leave tid).1 = if 1 < st.recursionCount then none else st.waitQueue.head? := by
  obtain ⟨owner, count, queue⟩ := st
  obtain rfl : owner = some tid := howner
  rw [leave_of_owned]
  split
  · rfl
  · cases queue <;> rfl

theorem leave_woken {woken : Tid} (hwoken : (st.leave tid).1 = some woken) :
    (st.leave tid).2.ownerTid = some woken ∧ (st.leave tid).2.recursionCount = 1 := by
  unfold CritState.leave at hwoken ⊢
  by_cases howner : st.ownerTid = some tid
  · rw [if_pos howner] at hwoken ⊢
    by_cases hmany : 1 < st.recursionCount
    · rw [if_pos hmany] at hwoken
      cases hwoken
    rw [if_neg hmany] at hwoken ⊢
    cases hqueue : st.waitQueue with
    | nil =>
      rw [hqueue] at hwoken
      cases hwoken
    | cons head rest =>
      rw [hqueue] at hwoken
      exact ⟨hwoken, rfl⟩
  · rw [if_neg howner] at hwoken
    cases hwoken

theorem enter_eq_none_iff :
    st.enter tid = none ↔ st.ownerTid = some tid ∧ usizeMax ≤ st.recursionCount := by
  rw [CritState.enter]
  cases howner : st.ownerTid with
  | none => simp
  | some owner =>
    by_cases hself : owner = tid
    · simp [hself]
    · simp [hself]

theorem leave_of_not_owner (howner : st.ownerTid ≠ some tid) : st.leave tid = (none, st) := by
  rw [CritState.leave, if_neg howner]

end CritState

structure Balanced (cs : CsPtr) (st : CritState) (log : List Event) : Prop extends st.Sound where
  fifo : blocked cs log = woken cs log ++ st.waitQueue
  balance : ∀ tid, log.countP (Event.enters cs tid) =
    log.countP (Event.leaves cs tid) + st.load tid

namespace Balanced

variable {cs : CsPtr} {st st' : CritState} {log : List Event} {tid : Tid}

theorem new : Balanced cs .fresh [] :=
  ⟨.fresh, rfl, fun _ => rfl⟩

section

variable (hst : Balanced cs st log)
include hst

theorem unmatched_eq (tid : Tid) : unmatched cs tid log = st.load tid := by
  rw [unmatched, hst.balance, Nat.add_sub_cancel_left]

theorem quiet {e : Event} (henters : ∀ tid, e.enters cs tid = false)
    (hleaves : ∀ tid, e.leaves cs tid = false) (hblocks : e.blocks cs = none)
    (hwakes : e.wakes cs = none) : Balanced cs st (log ++ [e]) := by
  refine ⟨hst.toSound, ?_, fun tid => ?_⟩
  · simpa [blocked, woken, hblocks, hwakes] using hst.fifo
  · simpa [henters, hleaves] using hst.balance tid

theorem other {e : Event} (he : e.cs ≠ cs) : Balanced cs st (log ++ [e]) := by
  cases e with
  | entered cs' tid acquired =>
    have hne : cs' ≠ cs := he
    apply hst.quiet <;> cases acquired <;>
      simp [Event.enters, Event.leaves, Event.blocks, Event.wakes, hne]
  | left cs' tid owned woken =>
    have hne : cs' ≠ cs := he
    apply hst.quiet <;> simp [Event.enters, Event.leaves, Event.blocks, Event.wakes, hne]

theorem enter (hwait : tid ∉ st.waitQueue) {acquired : Bool}
    (henter : st.enter tid = some (acquired, st')) :
    Balanced cs st' (log ++ [.entered cs tid acquired]) := by
  obtain ⟨hsound, hqueue, hload⟩ := hst.toSound.enter hwait henter
  refine ⟨hsound, ?_, fun t => ?_⟩
  · have hblocks : (Event.entered cs tid acquired).blocks cs =
        if acquired then none else some tid := by
      cases acquired <;> simp [Event.blocks]
    have hwakes : (Event.entered cs tid acquired).wakes cs = none := rfl
    have hfifo := hst.fifo
    simp only [blocked, woken] at hfifo ⊢
    rw [hqueue, filterMap_append, filterMap_append, hfifo]
    cases acquired <;> simp [hblocks, hwakes]
  · rw [hload, countP_append, countP_append, hst.balance t]
    by_cases ht : tid = t <;> simp [Event.enters, Event.leaves, ht]
    omega

theorem leave : Balanced cs (st.leave tid).2
      (log ++ [.left cs tid (st.ownerTid = some tid) (st.leave tid).1]) := by
  by_cases howner : st.ownerTid = some tid
  · obtain ⟨hsound, hqueue, hload⟩ := hst.toSound.leave howner
    refine ⟨hsound, ?_, fun t => ?_⟩
    · have hfifo := hst.fifo
      simp only [blocked, woken] at hfifo ⊢
      rw [hqueue] at hfifo
      rw [filterMap_append, filterMap_append, hfifo]
      cases (st.leave tid).1 <;> simp [filterMap_cons, Event.blocks, Event.wakes]
    · have hbalance := hst.balance t
      rw [hload] at hbalance
      rw [countP_append, countP_append, hbalance]
      by_cases ht : tid = t <;> simp [Event.enters, Event.leaves, howner, ht]
      omega
  · rw [CritState.leave_of_not_owner howner]
    apply hst.quiet <;> simp [Event.enters, Event.leaves, Event.blocks, Event.wakes, howner]

end

end Balanced

namespace Session

variable {s s' : Session}

def AllBalanced (s : Session) : Prop :=
  ∀ cs, Balanced cs (s.locks.critState cs) s.log

theorem AllBalanced.step (hs : s.AllBalanced) {op : Op} (hop : s.NotWaiting op)
    (hstep : s.step op = some s') : s'.AllBalanced := by
  intro cs
  cases op with
  | enter cs' tid =>
    rw [Session.step, map_eq_some_iff] at hstep
    obtain ⟨⟨acquired, locks⟩, henter, heq⟩ := hstep
    cases heq
    obtain ⟨st, hst, rfl⟩ := GlobalLocks.enter_eq_some henter
    dsimp only
    rw [GlobalLocks.critState_set]
    by_cases hcs : cs = cs'
    · subst hcs
      rw [if_pos rfl]
      exact (hs cs).enter hop hst
    · rw [if_neg hcs]
      exact (hs cs).other (Ne.symm hcs)
  | leave cs' tid =>
    obtain ⟨hwoken, hsections⟩ := s.locks.leave_spec cs' tid
    obtain rfl := Option.some.inj hstep
    dsimp only
    rw [hsections, hwoken]
    by_cases hcs : cs = cs'
    · subst hcs
      rw [if_pos rfl]
      exact (hs cs).leave
    · rw [if_neg hcs]
      exact (hs cs).other (Ne.symm hcs)

/-- The thread entered the section, by its own call or by being woken, and has not left it. -/
def Holds (s : Session) (cs : CsPtr) (tid : Tid) : Prop :=
  0 < unmatched cs tid s.log ∧ tid ∉ (s.locks.critState cs).waitQueue

theorem AllBalanced.owner_of_holds (hs : s.AllBalanced) {cs : CsPtr} {tid : Tid}
    (hholds : s.Holds cs tid) : (s.locks.critState cs).ownerTid = some tid := by
  obtain ⟨hpos, hnotin⟩ := hholds
  rw [(hs cs).unmatched_eq, CritState.load] at hpos
  by_contra howner
  rw [if_neg howner, if_neg hnotin] at hpos
  exact Nat.lt_irrefl 0 hpos

/-- In every state of a run in which no thread enters a section it waits for: a section is held by
one thread at most, the count is that of its enters, threads get the section in the order in which
they were blocked, and a leave changes nothing or gives one enter back or hands the section on. The
last leave wakes the head of the queue, and nobody waits for a free section. An enter fails only on
the overflow of the count. -/
theorem sections_exclusive_along_run (ops : List Op) (s : Session)
    (hops : Along step NotWaiting new ops) (hrun : run step new ops = some s) (cs : CsPtr) :
    (∀ t t', s.Holds cs t → s.Holds cs t' → t = t') ∧ (1 ≤ (s.locks.critState cs).recursionCount ↔
        ∃ t, (s.locks.critState cs).ownerTid = some t) ∧
      (∀ t, (s.locks.critState cs).ownerTid = some t →
        (s.locks.critState cs).recursionCount = unmatched cs t s.log ∧
          t ∉ (s.locks.critState cs).waitQueue) ∧ (s.locks.critState cs).waitQueue.Nodup ∧
      blocked cs s.log = woken cs s.log ++ (s.locks.critState cs).waitQueue ∧
      (∀ t, (s.locks.critState cs).ownerTid ≠ some t → s.locks.leave cs t = (none, s.locks)) ∧
      (∀ t w locks, s.locks.leave cs t = (some w, locks) →
        (locks.critState cs).ownerTid = some w ∧ (locks.critState cs).recursionCount = 1) ∧
      ((s.locks.critState cs).ownerTid = none → (s.locks.critState cs).waitQueue = []) ∧
      (∀ t, (s.locks.critState cs).ownerTid = some t → (s.locks.leave cs t).1 =
        if 1 < (s.locks.critState cs).recursionCount then none
        else (s.locks.critState cs).waitQueue.head?) ∧
      ∀ t, s.locks.enter cs t = none ↔ (s.locks.critState cs).ownerTid = some t ∧
        usizeMax ≤ (s.locks.critState cs).recursionCount := by
  have hs : s.AllBalanced := run_preserves AllBalanced (fun _ _ _ hs hop hstep => hs.step hop hstep)
    (fun _ => Balanced.new) hops hrun
  have hcs := hs cs
  refine ⟨fun t t' ht ht' => ?_, ⟨fun hcount => ?_, fun ⟨t, ht⟩ => (hcs.owned t ht).1⟩,
    fun t ht => ⟨?_, (hcs.owned t ht).2⟩, hcs.nodup, hcs.fifo,
    fun t ht => GlobalLocks.leave_of_not_owner ht, fun t w locks hleave => ?_,
    fun hnone => (hcs.free hnone).2, fun t ht => ?_, fun t => ?_⟩
  · exact Option.some.inj ((hs.owner_of_holds ht).symm.trans (hs.owner_of_holds ht'))
  · refine ne_none_iff_exists'.mp fun hnone => ?_
    rw [(hcs.free hnone).1] at hcount
    exact Nat.not_succ_le_zero 0 hcount
  · rw [hcs.unmatched_eq, CritState.load, if_pos ht]
  · obtain ⟨hwoken, hsections⟩ := s.locks.leave_spec cs t
    rw [hleave] at hwoken hsections
    rw [hsections cs, if_pos rfl]
    exact CritState.leave_woken hwoken.symm
  · rw [(s.locks.leave_spec cs t).1]
    exact CritState.leave_woken_of_owner ht
  · rw [GlobalLocks.enter, map_eq_none_iff]
    exact CritState.enter_eq_none_iff

def contended : List Op :=
  [.enter 0x1000 1, .enter 0x1000 1, .enter 0x1000 2, .leave 0x1000 1, .leave 0x1000 2,
    .leave 0x1000 1]

/-- Two threads contend for a section: the second is woken by the last leave of the first. -/
theorem sections_exclusive_along_run_contended : ∃ s, run step new contended = some s ∧
      s.Holds 0x1000 2 ∧ (∀ t t', s.Holds 0x1000 t → s.Holds 0x1000 t' → t = t') := by
  refine ⟨_, rfl, ⟨by decide, by decide⟩, ?_⟩
  exact (sections_exclusive_along_run contended _ (by decide) rfl 0x1000).1

end Session

end Mwemu.Threading
