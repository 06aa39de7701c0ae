import Mwemu.Macos.Sync

/-!
# Lock objects and waiting threads

The lock objects of a run, apart from each other in memory, with the word that names the owner of
each. Calls act on these words and on the waiting threads by few kinds of change: an owner is set,
a lock is released to a waiter or to nobody, and a thread is parked. Each of them keeps that a
thread waits only for a lock that has an owner, and that nothing else keeps a waiting thread from
running.
-/

namespace Mwemu.Macos

open Mwemu.Lib Mwemu.Threading

/-! ### Lock objects -/

inductive Lock where
  | mutex (m : Nat)
  | unfair (lock : Nat)
  deriving DecidableEq, Repr

namespace Lock

def addr : Lock → Nat
  | mutex m => m
  | unfair lock => lock

def size : Lock → Nat
  | mutex _ => 24
  | unfair _ => 4

def ownerAddr : Lock → Nat
  | mutex m => m + ownerOffset
  | unfair lock => lock

def ownerSize : Lock → Nat
  | mutex _ => 8
  | unfair _ => 4

def tag (l : Lock) (tid : Nat) : Nat :=
  match l with
  | mutex _ => tid
  | unfair _ => tid % 2 ^ 32

def owner (l : Lock) (m : Maps) : Nat := (m.peek l.ownerSize l.ownerAddr).getD 0

theorem ownerSize_pos (l : Lock) : 0 < l.ownerSize := by cases l <;> exact Nat.succ_pos _

def Apart (l l' : Lock) : Prop := l.addr + l.size ≤ l'.addr ∨ l'.addr + l'.size ≤ l.addr

instance (l l' : Lock) : Decidable (Apart l l') := inferInstanceAs (Decidable (_ ∨ _))

end Lock

structure Locks where
  locks : List Lock
  apart : locks.Pairwise Lock.Apart

variable {L : Locks}

theorem Locks.apart_of_ne {l l' : Lock} (hl : l ∈ L.locks) (hl' : l' ∈ L.locks) (hne : l ≠ l') :
    l.Apart l' := by
  have : Std.Symm Lock.Apart := ⟨fun _ _ happart => Or.symm happart⟩
  exact L.apart.forall hl hl' hne

theorem Lock.eq_of_addr {l l' : Lock} (hl : l ∈ L.locks) (hl' : l' ∈ L.locks)
    (haddr : l.addr = l'.addr) : l = l' := by
  have hsize : ∀ l : Lock, 0 < l.size := by
    intro l
    cases l <;> exact Nat.succ_pos _
  have hpos := hsize l
  have hpos' := hsize l'
  by_contra hne
  rcases L.apart_of_ne hl hl' hne with happart | happart <;> omega

structure Valid (L : Locks) (m : Maps) : Prop where
  wf : m.Wf
  owner : ∀ l ∈ L.locks, HasWord m l.ownerSize l.ownerAddr
  count : ∀ a, .mutex a ∈ L.locks → HasWord m 4 (a + countOffset)

structure Sets (L : Locks) (m m' : Maps) (l : Lock) (v : Nat) : Prop where
  valid : Valid L m'
  owner : l.owner m' = v
  others : ∀ l' ∈ L.locks, l' ≠ l → l'.owner m' = l'.owner m

structure Keeps (L : Locks) (m m' : Maps) : Prop where
  valid : Valid L m'
  owners : ∀ l ∈ L.locks, l.owner m' = l.owner m

section Memory

variable {m m' m'' : Maps} {l : Lock} {v : Nat}

theorem Valid.wrote (hvalid : Valid L m) {size addr value : Nat}
    (hwrote : Wrote m m' size addr value) : Valid L m' :=
  ⟨hwrote.wf, fun l hl => hwrote.words _ _ (hvalid.owner l hl),
    fun a ha => hwrote.words _ _ (hvalid.count a ha)⟩

theorem Lock.owner_of_apart (hvalid : Valid L m) {size addr value : Nat}
    (hwrote : Wrote m m' size addr value) (hl : l ∈ L.locks)
    (happart : l.ownerAddr + l.ownerSize ≤ addr ∨ addr + size ≤ l.ownerAddr) :
    l.owner m' = l.owner m := by
  rw [Lock.owner, Lock.owner, hwrote.apart _ _ l.ownerSize_pos happart (hvalid.owner l hl).read]

theorem Lock.ownerAddr_bounds (l : Lock) :
    l.addr ≤ l.ownerAddr ∧ l.ownerAddr + l.ownerSize ≤ l.addr + l.size := by
  cases l <;> simp only [addr, ownerAddr, ownerOffset, ownerSize, size] <;> omega

theorem Valid.sets (hvalid : Valid L m) (hl : l ∈ L.locks)
    (hwrote : Wrote m m' l.ownerSize l.ownerAddr v) (hv : v < 256 ^ l.ownerSize) :
    Sets L m m' l v := by
  refine ⟨hvalid.wrote hwrote, ?_, fun l' hl' hne => ?_⟩
  · rw [Lock.owner, hwrote.same, Option.getD_some, Nat.mod_eq_of_lt hv]
  · refine Lock.owner_of_apart hvalid hwrote hl' ?_
    have hbounds := l.ownerAddr_bounds
    have hbounds' := l'.ownerAddr_bounds
    rcases L.apart_of_ne hl' hl hne with happart | happart <;> omega

theorem Valid.keeps_count (hvalid : Valid L m) {a : Nat} (ha : .mutex a ∈ L.locks)
    (hwrote : Wrote m m' 4 (a + countOffset) v) : Keeps L m m' := by
  refine ⟨hvalid.wrote hwrote, fun l hl => Lock.owner_of_apart hvalid hwrote hl ?_⟩
  by_cases hl' : l = .mutex a
  · subst hl'
    exact .inl (by simp only [Lock.ownerAddr, Lock.ownerSize, ownerOffset, countOffset]; omega)
  have hbounds := l.ownerAddr_bounds
  have hapart := L.apart_of_ne hl ha hl'
  rw [Lock.Apart, show (Lock.mutex a).addr = a from rfl,
    show (Lock.mutex a).size = 24 from rfl] at hapart
  rw [countOffset]
  rcases hapart with hapart | hapart <;> omega

theorem Sets.keeps (hsets : Sets L m m' l v) (hl : l ∈ L.locks) (hkeeps : Keeps L m' m'') :
    Sets L m m'' l v :=
  ⟨hkeeps.valid, (hkeeps.owners l hl).trans hsets.owner,
    fun l' hl' hne => (hkeeps.owners l' hl').trans (hsets.others l' hl' hne)⟩

end Memory

/-! ### Threads -/

/-- Ids count up from that of the first thread, and their low words tell threads apart. -/
structure Ids (threads : List ThreadContext) : Prop where
  numbered : Numbered threads
  small : 0x1000 + threads.length ≤ 2 ^ 32

/-- What holds of every thread, given the owners. -/
structure ThreadOk (L : Locks) (owner : Lock → Nat) (tick : Nat) (t : ThreadContext) : Prop where
  lock : ∀ a, t.blockedOnLock = some a → ∃ l ∈ L.locks, l.addr = a ∧ owner l ≠ 0
  cond : ∀ c a, t.condWait = some (c, a) → .mutex a ∈ L.locks
  alone : t.blockedOnLock = none ∨ t.condWait = none
  idle : t.blockedOnLock ≠ none ∨ t.condWait ≠ none →
    { t with blockedOnLock := none, condWait := none }.isRunnable tick = true

structure SyncInv (L : Locks) (e : Emu) : Prop where
  valid : Valid L e.maps
  ids : Ids e.threads
  threads : ∀ t ∈ e.threads, ThreadOk L (fun l => l.owner e.maps) e.tick t
  owned : ∀ l ∈ L.locks, l.owner e.maps ≠ 0 →
    l.owner e.maps ∈ e.threads.map fun t => l.tag t.id

section Threads

variable {e e' : Emu} {t : ThreadContext} {i : Nat}

variable {f : ThreadContext → ThreadContext}

theorem Emu.forall_mem_modifyThread {P : ThreadContext → Prop} (hall : ∀ t ∈ e.threads, P t)
    (hf : ∀ t, e.threads[i]? = some t → P (f t)) : ∀ t ∈ (e.modifyThread i f).threads, P t := by
  intro t ht
  obtain ⟨j, hj⟩ := List.getElem?_of_mem ht
  rw [Emu.getElem?_modifyThread, Option.map_eq_some_iff] at hj
  obtain ⟨t', ht', rfl⟩ := hj
  by_cases hij : i = j
  · subst hij
    rw [if_pos rfl]
    exact hf t' ht'
  · rw [if_neg hij]
    exact hall t' (List.mem_of_getElem? ht')

theorem Ids.modifyThread (hids : Ids e.threads) (hf : ∀ t, (f t).id = t.id) :
    Ids (e.modifyThread i f).threads :=
  ⟨hids.numbered.congr (Emu.map_modifyThread hf),
    (List.length_modify f e.threads i).symm ▸ hids.small⟩

theorem Ids.id_eq (hids : Ids e.threads) (ht : e.threads[i]? = some t) : t.id = 0x1000 + i :=
  hids.numbered.id_eq ht

theorem Ids.id_bounds (hids : Ids e.threads) (ht : t ∈ e.threads) :
    0x1000 ≤ t.id ∧ t.id < 2 ^ 32 := by
  obtain ⟨i, hi⟩ := List.getElem?_of_mem ht
  have hid := hids.id_eq hi
  have hlt := (List.getElem?_eq_some_iff.mp hi).1
  have hsmall := hids.small
  omega

theorem Ids.tag_eq (hids : Ids e.threads) (ht : t ∈ e.threads) (l : Lock) : l.tag t.id = t.id := by
  obtain ⟨-, hlt⟩ := hids.id_bounds ht
  cases l with
  | mutex m => rfl
  | unfair lock => exact Nat.mod_eq_of_lt hlt

section

variable (hinv : SyncInv L e)
include hinv

theorem SyncInv.modifyThread (hid : ∀ t, (f t).id = t.id)
    (hf : ∀ t, e.threads[i]? = some t → ThreadOk L (fun l => l.owner e.maps) e.tick t →
      ThreadOk L (fun l => l.owner e.maps) e.tick (f t)) : SyncInv L (e.modifyThread i f) := by
  refine ⟨hinv.valid, hinv.ids.modifyThread hid, ?_, fun l hl howner => ?_⟩
  · exact Emu.forall_mem_modifyThread hinv.threads fun t ht =>
      hf t ht (hinv.threads t (List.mem_of_getElem? ht))
  · have htags : ((e.modifyThread i f).threads.map fun t => l.tag t.id) =
        e.threads.map fun t => l.tag t.id := Emu.map_modifyThread fun t => by rw [hid]
    rw [htags]
    exact hinv.owned l hl howner

theorem SyncInv.setRet (i : Nat) (value : BitVec 64) :
    SyncInv L (e.modifyThread i fun t => t.setRet value) :=
  hinv.modifyThread (fun _ => rfl) fun _ _ hok => ⟨hok.lock, hok.cond, hok.alone, hok.idle⟩

theorem SyncInv.block (ht : e.threads[i]? = some t)
    (hrun : t.isRunnable e.tick = true) {l : Lock} (hl : l ∈ L.locks)
    (howner : l.owner e.maps ≠ 0) :
    SyncInv L (e.modifyThread i fun t => { t with blockedOnLock := some l.addr }) := by
  refine hinv.modifyThread (fun _ => rfl) fun t' ht' hok => ?_
  obtain rfl := Option.some.inj (ht.symm.trans ht')
  obtain ⟨-, -, -, -, -, -, hcond⟩ := ThreadContext.isRunnable_iff.mp hrun
  have hidle := ThreadContext.isRunnable_iff.mp hrun
  refine ⟨?_, hok.cond, .inr hcond, fun _ => ThreadContext.isRunnable_iff.mpr ?_⟩
  · rintro _ ⟨⟩
    exact ⟨l, hl, rfl, howner⟩
  · exact ⟨hidle.1, hidle.2.1, hidle.2.2.1, hidle.2.2.2.1, hidle.2.2.2.2.1, rfl, rfl⟩

theorem SyncInv.park (ht : e.threads[i]? = some t)
    (hrun : t.isRunnable e.tick = true) {c a : Nat} (ha : .mutex a ∈ L.locks) :
    SyncInv L (e.modifyThread i fun t => { t with condWait := some (c, a) }) := by
  refine hinv.modifyThread (fun _ => rfl) fun t' ht' hok => ?_
  obtain rfl := Option.some.inj (ht.symm.trans ht')
  have hidle := ThreadContext.isRunnable_iff.mp hrun
  refine ⟨hok.lock, ?_, .inl hidle.2.2.2.2.2.1, fun _ => ThreadContext.isRunnable_iff.mpr ?_⟩
  · rintro _ _ ⟨⟩
    exact ha
  · exact ⟨hidle.1, hidle.2.1, hidle.2.2.1, hidle.2.2.2.1, hidle.2.2.2.2.1, rfl, rfl⟩

theorem SyncInv.leaveCond (i : Nat) :
    SyncInv L (e.modifyThread i fun t => { t with condWait := none }) := by
  refine hinv.modifyThread (fun _ => rfl) fun t _ hok => ⟨hok.lock, ?_, .inr rfl, fun hor => ?_⟩
  · exact fun _ _ hnone => (nomatch hnone)
  · exact hok.idle (.inl (hor.resolve_right fun hnone => hnone rfl))

end

theorem ThreadOk.isRunnable_leaveCond {owner : Lock → Nat} {tick : Nat}
    (hok : ThreadOk L owner tick t) (hcond : t.condWait ≠ none) :
    { t with condWait := none }.isRunnable tick = true := by
  have hblocked : t.blockedOnLock = none := hok.alone.resolve_right hcond
  have hidle := ThreadContext.isRunnable_iff.mp (hok.idle (.inr hcond))
  refine ThreadContext.isRunnable_iff.mpr ?_
  exact ⟨hidle.1, hidle.2.1, hidle.2.2.1, hidle.2.2.2.1, hidle.2.2.2.2.1, hblocked, rfl⟩

end Threads

end Mwemu.Macos
