import Mwemu.Macos.Locks

/-!
# Synchronisation calls keep the locks owned

What each call does to the owners of the lock objects and to the waiting threads: a lock is taken,
passed on to a waiter or given up when nobody waits, and a thread is parked only for a lock that has
an owner or for a condition. Every call returns and keeps the invariant, but for the overflow of a
recursion depth.
-/

namespace Mwemu.Macos

open Mwemu.Lib Mwemu.Threading List Option

variable {L : Locks}

/-! ### What the helpers do -/

section Helpers

variable {e e' : Emu} {l : Lock} {m m' : Maps} {a : Nat}

/-- A lock was released: to a waiter, or to nobody if there was none. -/
inductive Released (L : Locks) (l : Lock) (e e' : Emu) : Prop where
  | passed (i : Nat) (t : ThreadContext) (m' : Maps) (hget : e.threads[i]? = some t)
      (hwaits : t.blockedOnLock = some l.addr) (hsets : Sets L e.maps m' l (l.tag t.id))
      (heq : e' = (e.withMaps m').wake i)
  | cleared (m' : Maps) (hnone : ∀ t ∈ e.threads, t.blockedOnLock ≠ some l.addr)
      (hsets : Sets L e.maps m' l 0) (heq : e' = e.withMaps m')

theorem write_owner (hvalid : Valid L e.maps) (hl : l ∈ L.locks) {v : Nat}
    (hv : v < 256 ^ l.ownerSize) : ∃ m', e.write l.ownerSize l.ownerAddr v = some (e.withMaps m') ∧
      Sets L e.maps m' l v := by
  obtain ⟨m', hwrite, hwrote⟩ :=
    Emu.write_of_hasWord hvalid.wf l.ownerSize_pos (hvalid.owner l hl) v
  exact ⟨m', hwrite, hvalid.sets hl hwrote hv⟩

theorem write_count (hvalid : Valid L e.maps) (ha : .mutex a ∈ L.locks) (v : Nat) :
    ∃ m', e.write 4 (a + countOffset) v = some (e.withMaps m') ∧ Keeps L e.maps m' := by
  obtain ⟨m', hwrite, hwrote⟩ := Emu.write_of_hasWord hvalid.wf (by decide) (hvalid.count a ha) v
  exact ⟨m', hwrite, hvalid.keeps_count ha hwrote⟩

theorem write_mutex (hvalid : Valid L e.maps) (ha : .mutex a ∈ L.locks) {v : Nat}
    (hv : v < 2 ^ 64) (n : Nat) : ∃ m', (e.write 8 (a + ownerOffset) v).bind
      (fun e => e.write 4 (a + countOffset) n) = some (e.withMaps m') ∧
        Sets L e.maps m' (.mutex a) v := by
  obtain ⟨m₁, hwrite₁, hsets⟩ := write_owner hvalid ha (v := v) hv
  obtain ⟨m₂, hwrite₂, hkeeps⟩ := write_count (e := e.withMaps m₁) hsets.valid ha n
  refine ⟨m₂, ?_, hsets.keeps ha hkeeps⟩
  rw [show e.write 8 (a + ownerOffset) v = _ from hwrite₁, bind_some]
  exact hwrite₂

theorem mutexTake_eq (hvalid : Valid L e.maps) (ha : .mutex a ∈ L.locks) {tid : Nat}
    (htid : tid < 2 ^ 64) : ∃ m', e.mutexTake a tid = some (e.withMaps m') ∧
      Sets L e.maps m' (.mutex a) tid :=
  write_mutex hvalid ha htid 1

theorem nextWaiter_cases (e : Emu) (a : Nat) :
    (∃ i t, e.nextWaiter a = some i ∧ e.threads[i]? = some t ∧ t.blockedOnLock = some a) ∨
      e.nextWaiter a = none ∧ ∀ t ∈ e.threads, t.blockedOnLock ≠ some a := by
  cases hnext : e.nextWaiter a with
  | some i =>
    obtain ⟨hany, -⟩ := nextTurn_eq_some hnext
    obtain ⟨t, ht, hblocked⟩ := (any_eq_true _ _).mp hany
    exact .inl ⟨i, t, rfl, ht, of_decide_eq_true hblocked⟩
  | none =>
    refine .inr ⟨rfl, fun t ht hblocked => ?_⟩
    obtain ⟨j, hj⟩ := List.getElem?_of_mem ht
    have hfalse := nextTurn_eq_none.mp hnext j (List.getElem?_eq_some_iff.mp hj).1
    rw [hj, any_some, decide_eq_false_iff_not] at hfalse
    exact hfalse hblocked

theorem mutexRelease_released (hinv : SyncInv L e) (ha : .mutex a ∈ L.locks) :
    ∃ e', e.mutexRelease a = some e' ∧ Released L (.mutex a) e e' := by
  rw [Emu.mutexRelease]
  rcases nextWaiter_cases e a with ⟨i, t, hnext, ht, hblocked⟩ | ⟨hnext, hnone⟩
  · have hid := (hinv.ids.id_bounds (mem_of_getElem? ht)).2
    obtain ⟨m', htake, hsets⟩ := mutexTake_eq hinv.valid ha (show t.id < 2 ^ 64 by omega)
    refine ⟨_, ?_, .passed i t m' ht hblocked hsets rfl⟩
    rw [hnext]
    dsimp only
    rw [ht, bind_eq_bind, bind_some, htake]
    rfl
  · obtain ⟨m', hwrite, hsets⟩ := write_mutex hinv.valid ha (show 0 < 2 ^ 64 by decide) 0
    refine ⟨_, ?_, .cleared m' hnone hsets rfl⟩
    rw [hnext]
    exact hwrite

theorem unfairUnlock_released (hinv : SyncInv L e) {lock : Nat} (hl : .unfair lock ∈ L.locks) :
    ∃ e', e.apiUnfairUnlock lock = some e' ∧ Released L (.unfair lock) e e' := by
  rw [Emu.apiUnfairUnlock]
  rcases nextWaiter_cases e lock with ⟨i, t, hnext, ht, hblocked⟩ | ⟨hnext, hnone⟩
  · obtain ⟨m', hwrite, hsets⟩ := write_owner hinv.valid hl (v := t.id % 2 ^ 32)
      (Nat.mod_lt _ (by decide))
    refine ⟨_, ?_, .passed i t m' ht hblocked hsets rfl⟩
    rw [hnext]
    dsimp only
    rw [ht, bind_eq_bind, bind_some, show e.write 4 lock (t.id % 2 ^ 32) = _ from hwrite]
    rfl
  · obtain ⟨m', hwrite, hsets⟩ := write_owner hinv.valid hl (v := 0) (Nat.pow_pos (by decide))
    refine ⟨_, ?_, .cleared m' hnone hsets rfl⟩
    rw [hnext]
    exact hwrite

end Helpers

/-! ### What they keep -/

section Keeping

variable {e e' : Emu} {l : Lock} {m' : Maps} {t : ThreadContext}

theorem ThreadOk.mono {owner owner' : Lock → Nat} {tick : Nat} (hok : ThreadOk L owner tick t)
    (howner : ∀ l ∈ L.locks, t.blockedOnLock = some l.addr → owner l ≠ 0 → owner' l ≠ 0) :
    ThreadOk L owner' tick t := by
  refine ⟨fun a ha => ?_, hok.cond, hok.alone, hok.idle⟩
  obtain ⟨l, hl, rfl, hne⟩ := hok.lock a ha
  exact ⟨l, hl, rfl, howner l hl ha hne⟩

theorem SyncInv.keeps (hinv : SyncInv L e) (hkeeps : Keeps L e.maps m') :
    SyncInv L (e.withMaps m') := by
  refine ⟨hkeeps.valid, hinv.ids, fun t ht => ?_, fun l hl howner => ?_⟩
  · exact (hinv.threads t ht).mono fun l hl _ hne => (hkeeps.owners l hl).symm ▸ hne
  · rw [show l.owner (e.withMaps m').maps = l.owner e.maps from hkeeps.owners l hl] at howner ⊢
    exact hinv.owned l hl howner

theorem SyncInv.sets (hinv : SyncInv L e) (ht : t ∈ e.threads)
    (hsets : Sets L e.maps m' l (l.tag t.id)) : SyncInv L (e.withMaps m') := by
  have htag : l.tag t.id ≠ 0 := by
    have hid := (hinv.ids.id_bounds ht).1
    rw [hinv.ids.tag_eq ht]
    omega
  refine ⟨hsets.valid, hinv.ids, fun t' ht' => ?_, fun l' hl' howner => ?_⟩
  · refine (hinv.threads t' ht').mono fun l' hl' _ hne => ?_
    by_cases hll : l' = l
    · subst hll
      exact hsets.owner.symm ▸ htag
    · exact (hsets.others l' hl' hll).symm ▸ hne
  · by_cases hll : l' = l
    · subst hll
      rw [show l'.owner (e.withMaps m').maps = _ from hsets.owner]
      exact mem_map_of_mem (f := fun t => l'.tag t.id) ht
    · rw [show l'.owner (e.withMaps m').maps = _ from hsets.others l' hl' hll] at howner ⊢
      exact hinv.owned l' hl' howner

theorem SyncInv.released (hinv : SyncInv L e) (hl : l ∈ L.locks) (hreleased : Released L l e e') :
    SyncInv L e' := by
  cases hreleased with
  | passed i t m' hget hwaits hsets heq =>
    subst heq
    refine (hinv.sets (mem_of_getElem? hget) hsets).modifyThread (fun _ => rfl) fun t' ht' hok => ?_
    obtain rfl := Option.some.inj (hget.symm.trans ht')
    have hcond : t.condWait = none := hok.alone.resolve_left (by rw [hwaits]; exact (nomatch ·))
    refine ⟨fun _ hnone => (nomatch hnone), hok.cond, .inl rfl, fun hor => ?_⟩
    exact (hor.elim (fun h => h rfl) fun h => h hcond).elim
  | cleared m' hnone hsets heq =>
    subst heq
    refine ⟨hsets.valid, hinv.ids, fun t ht => ?_, fun l' hl' howner => ?_⟩
    · refine (hinv.threads t ht).mono fun l' hl' hblocked hne => ?_
      have hll : l' ≠ l := fun hll => hnone t ht (hll ▸ hblocked)
      exact (hsets.others l' hl' hll).symm ▸ hne
    have hll : l' ≠ l := by
      rintro rfl
      exact howner hsets.owner
    rw [show l'.owner (e.withMaps m').maps = _ from hsets.others l' hl' hll] at howner ⊢
    exact hinv.owned l' hl' howner

theorem Released.getElem? (hreleased : Released L l e e') {j : Nat}
    (ht : e.threads[j]? = some t) (hnot : t.blockedOnLock ≠ some l.addr) :
    e'.threads[j]? = some t := by
  cases hreleased with
  | passed i t' m' hget hwaits hsets heq =>
    subst heq
    rw [Emu.wake, Emu.getElem?_modifyThread, show (e.withMaps m').threads[j]? = some t from ht,
      map_some, if_neg]
    rintro rfl
    obtain rfl := Option.some.inj (hget.symm.trans ht)
    exact hnot hwaits
  | cleared m' hnone hsets heq =>
    subst heq
    exact ht

theorem Released.tick_eq (hreleased : Released L l e e') :
    e'.tick = e.tick ∧ e'.currentThreadId = e.currentThreadId := by
  cases hreleased with
  | passed i t' m' hget hwaits hsets heq =>
    subst heq
    exact ⟨rfl, rfl⟩
  | cleared m' hnone hsets heq =>
    subst heq
    exact ⟨rfl, rfl⟩

end Keeping

/-! ### What a call leaves alone -/

/-- The address of the lock that the thread waits for, be it behind a condition. -/
def wants (t : ThreadContext) : Option Nat := t.blockedOnLock.or (t.condWait.map Prod.snd)

/-- Owners stay, but for those of `P`, and a thread other than `k` goes on waiting or has got its
lock. -/
structure Moves (L : Locks) (P : Lock → Prop) (k : Nat) (e e' : Emu) : Prop where
  owners : ∀ l ∈ L.locks, l.owner e.maps ≠ 0 → P l ∨ l.owner e'.maps = l.owner e.maps
  others : ∀ i ≠ k, ∀ t, e.threads[i]? = some t → ∃ t', e'.threads[i]? = some t' ∧
    (wants t' = wants t ∨ wants t' = none ∧ ∀ l ∈ L.locks, wants t = some l.addr →
      l.owner e'.maps = l.tag (0x1000 + i))

section Moves

variable {P Q : Lock → Prop} {k : Nat} {e e' e'' : Emu} {l : Lock} {m' : Maps}

theorem Moves.mono (hmoves : Moves L P k e e') (hPQ : ∀ l, P l → Q l) : Moves L Q k e e' :=
  ⟨fun l hl howner => (hmoves.owners l hl howner).imp_left (hPQ l), hmoves.others⟩

theorem Moves.refl (e : Emu) : Moves L P k e e :=
  ⟨fun _ _ _ => .inr rfl, fun _ _ t ht => ⟨t, ht, .inl rfl⟩⟩

/-- One thread changes, and if it stops waiting it has got its lock. -/
theorem moves_modify {i : Nat} {f : ThreadContext → ThreadContext}
    (howners : ∀ l ∈ L.locks, l.owner e.maps ≠ 0 → P l ∨ l.owner e'.maps = l.owner e.maps)
    (hthreads : e'.threads = e.threads.modify i f)
    (hwants : ∀ t, e.threads[i]? = some t → wants (f t) = wants t ∨ wants (f t) = none ∧
      ∀ l ∈ L.locks, wants t = some l.addr → l.owner e'.maps = l.tag (0x1000 + i)) :
    Moves L P k e e' := by
  refine ⟨howners, fun j _ t ht => ?_⟩
  rw [hthreads, List.getElem?_modify, ht]
  refine ⟨_, rfl, ?_⟩
  by_cases hij : i = j
  · subst hij
    dsimp only
    rw [if_pos rfl]
    exact hwants t ht
  · exact .inl (congrArg wants (if_neg hij))

theorem moves_modifyThread (f : ThreadContext → ThreadContext) :
    Moves L P k e (e.modifyThread k f) := by
  refine ⟨fun _ _ _ => .inr rfl, fun i hik t ht => ⟨t, ?_, .inl rfl⟩⟩
  rw [Emu.getElem?_modifyThread, ht, map_some, if_neg (Ne.symm hik)]

theorem moves_withMaps (howners : ∀ l ∈ L.locks, l.owner e.maps ≠ 0 →
    P l ∨ l.owner m' = l.owner e.maps) : Moves L P k e (e.withMaps m') :=
  ⟨howners, fun _ _ t ht => ⟨t, ht, .inl rfl⟩⟩

theorem Sets.moves {v : Nat} (hsets : Sets L e.maps m' l v) (hfree : l.owner e.maps = 0) :
    Moves L P k e (e.withMaps m') := by
  refine moves_withMaps fun l' hl' howner => .inr (hsets.others l' hl' ?_)
  rintro rfl
  exact howner hfree

theorem Keeps.moves (hkeeps : Keeps L e.maps m') : Moves L P k e (e.withMaps m') :=
  moves_withMaps fun l hl _ => .inr (hkeeps.owners l hl)

theorem Ids.tag_ne_zero (hids : Ids e.threads) {i : Nat} {t : ThreadContext}
    (ht : e.threads[i]? = some t) (l : Lock) : l.tag (0x1000 + i) ≠ 0 := by
  rw [← hids.id_eq ht, hids.tag_eq (mem_of_getElem? ht)]
  have hid := (hids.id_bounds (mem_of_getElem? ht)).1
  omega

theorem Moves.trans (hids : Ids e.threads) (hfirst : Moves L P k e e')
    (hsecond : Moves L (fun _ => False) k e' e'') : Moves L P k e e'' := by
  refine ⟨fun l hl howner => ?_, fun i hik t ht => ?_⟩
  · refine (hfirst.owners l hl howner).imp_right fun hsame => ?_
    rw [← hsame] at howner ⊢
    exact (hsecond.owners l hl howner).resolve_left id
  obtain ⟨t', ht', hwants⟩ := hfirst.others i hik t ht
  obtain ⟨t'', ht'', hwants'⟩ := hsecond.others i hik t' ht'
  refine ⟨t'', ht'', ?_⟩
  rcases hwants with hsame | ⟨hnone, hgot⟩
  · rwa [← hsame]
  · refine .inr ⟨hwants'.elim (·.trans hnone) And.left, fun l hl hwant => ?_⟩
    have howner := hgot l hl hwant
    have hne := howner ▸ hids.tag_ne_zero ht l
    rw [(hsecond.owners l hl hne).resolve_left id, howner]

theorem Released.moves (hinv : SyncInv L e) (hl : l ∈ L.locks) (hreleased : Released L l e e') :
    Moves L (· = l) k e e' := by
  have howners {m' : Maps} {v : Nat} (hsets : Sets L e.maps m' l v) (l' : Lock)
      (hl' : l' ∈ L.locks) : l' = l ∨ l'.owner m' = l'.owner e.maps :=
    (em (l' = l)).imp_right (hsets.others l' hl')
  cases hreleased with
  | cleared m' hnone hsets heq =>
    subst heq
    exact moves_withMaps fun l' hl' _ => howners hsets l' hl'
  | passed i t m' hget hwaits hsets heq =>
    subst heq
    refine moves_modify (fun l' hl' _ => howners hsets l' hl') rfl fun u hu => ?_
    obtain rfl := Option.some.inj (hget.symm.trans hu)
    have hcond : t.condWait = none :=
      (hinv.threads t (mem_of_getElem? hget)).alone.resolve_left (hwaits ▸ some_ne_none _)
    refine .inr ⟨by simp [wants, ThreadContext.setRet, hcond], fun l' hl' hwant => ?_⟩
    rw [wants, hwaits, Option.some_or, Option.some.injEq] at hwant
    obtain rfl := Lock.eq_of_addr hl hl' hwant
    rw [← hinv.ids.id_eq hget]
    exact hsets.owner

end Moves

/-! ### Calls -/

/-- The objects that a call names are lock objects of their kind. -/
def SyncCall.On (L : Locks) : SyncCall → Prop
  | .mutexLock m | .mutexTrylock m | .mutexUnlock m | .condWait _ m | .condTimedwait m _ _ =>
    .mutex m ∈ L.locks
  | .condWake _ _ => True
  | .unfairLock lock | .unfairTrylock lock | .unfairUnlock lock => .unfair lock ∈ L.locks

/-- The depth of a recursive mutex reaches the end of its word. -/
def Emu.DepthFull (e : Emu) (m : Nat) : Prop :=
  e.mutexOwner m = e.currentTid ∧ e.mutexKind m = recursive ∧
    2 ^ 32 ≤ (e.maps.peek 4 (m + countOffset)).getD 0 + 1

def SyncCall.Overflows (e : Emu) : SyncCall → Prop
  | .mutexLock m | .mutexTrylock m => e.DepthFull m
  | .condTimedwait m abstime _ => e.mutexOwner m = e.currentTid ∧ 2 ^ 64 ≤ abstime + 8
  | _ => False

def SyncCall.Releases (e : Emu) (l : Lock) : SyncCall → Prop
  | .mutexUnlock m => l = .mutex m ∧ (e.mutexOwner m = e.currentTid ∨ e.mutexKind m = normal) ∧
      (e.maps.peek 4 (m + countOffset)).getD 1 ≤ 1
  | .condWait _ m => l = .mutex m ∧ e.mutexOwner m = e.currentTid
  | .condTimedwait m abstime _ =>
    l = .mutex m ∧ e.mutexOwner m = e.currentTid ∧ abstime + 8 < 2 ^ 64
  | .unfairUnlock lock => l = .unfair lock
  | _ => False

/-- The caller has come back with the lock. -/
def SyncCall.Took (e' : Emu) (l : Lock) : SyncCall → Prop
  | .mutexLock m | .mutexTrylock m =>
    l = .mutex m ∧ wants e'.current = none ∧ e'.current.regs.x 0 = 0
  | .condTimedwait m _ _ =>
    l = .mutex m ∧ wants e'.current = none ∧ e'.current.regs.x 0 ≠ eperm
  | .unfairLock lock => l = .unfair lock ∧ wants e'.current = none
  | .unfairTrylock lock => l = .unfair lock ∧ e'.current.regs.x 0 = 1
  | _ => False

/-- What a call does to the locks: it takes none from its owner, other than by a release, and one
that it comes back with is the caller's. -/
structure Fair (L : Locks) (e : Emu) (c : SyncCall) (e' : Emu) : Prop where
  inv : SyncInv L e'
  moves : Moves L (fun l => c.Releases e l) e.currentThreadId e e'
  took : ∀ l, c.Took e' l → l.owner e'.maps = l.tag e.currentTid

/-- A call returns and is fair, or overflows. -/
def Ends (L : Locks) (e : Emu) (c : SyncCall) : Prop :=
  (c.exec e = none ∧ c.Overflows e) ∨ ∃ e', c.exec e = some e' ∧ Fair L e c e'

def Emu.condWaiters (e : Emu) (c : Nat) : Nat :=
  (e.threads.map ThreadContext.condWait).countP fun wait => wait.any fun w => w.1 = c

theorem Emu.condWaits_leaveCond (e : Emu) (i : Nat) :
    (e.modifyThread i fun t => { t with condWait := none }).threads.map ThreadContext.condWait =
      (e.threads.map ThreadContext.condWait).set i none := by
  refine ext_getElem? fun j => ?_
  rw [List.getElem?_map, Emu.getElem?_modifyThread, Option.map_map, List.getElem?_set,
    List.getElem?_map]
  split
  · next hij =>
    subst hij
    rw [length_map]
    split
    · next hi =>
      rw [List.getElem?_eq_getElem hi, map_some, Function.comp_apply]
    · next hi =>
      rw [List.getElem?_eq_none (Nat.le_of_not_lt hi), map_none]
  · rfl

theorem condWaiter_cases (e : Emu) (c : Nat) :
    (∃ i, e.condWaiter c = some i ∧ i < e.threads.length ∧
      ((e.threads.map ThreadContext.condWait).set i none).countP
        (fun wait => wait.any fun w => w.1 = c) + 1 = e.condWaiters c) ∨
      e.condWaiter c = none ∧ e.condWaiters c = 0 := by
  cases hnext : e.condWaiter c with
  | some i =>
    obtain ⟨hany, hi⟩ := nextTurn_eq_some hnext
    rw [List.getElem?_eq_getElem hi, any_some] at hany
    have hi' : i < (e.threads.map ThreadContext.condWait).length := by rwa [length_map]
    have hget : (e.threads.map ThreadContext.condWait)[i] = (e.threads[i]).condWait := getElem_map _
    refine .inl ⟨i, rfl, hi, ?_⟩
    have hpos : 0 < e.condWaiters c :=
      countP_pos_iff.mpr ⟨_, getElem_mem hi', by rw [hget]; exact hany⟩
    rw [countP_set hi', hget, if_pos hany, any_none, if_neg Bool.false_ne_true]
    exact Nat.sub_add_cancel hpos
  | none =>
    refine .inr ⟨rfl, countP_eq_zero.mpr fun wait hwait hany => ?_⟩
    obtain ⟨t, ht, rfl⟩ := mem_map.mp hwait
    obtain ⟨j, hj⟩ := List.getElem?_of_mem ht
    have hfalse := nextTurn_eq_none.mp hnext j (List.getElem?_eq_some_iff.mp hj).1
    rw [hj, any_some] at hfalse
    exact Bool.false_ne_true (hfalse.symm.trans hany)

theorem Emu.current_modifyThread (e : Emu) (f : ThreadContext → ThreadContext) :
    (e.modifyThread e.currentThreadId f).current = f e.current := by
  refine Option.some.inj ((Emu.getElem?_current _).symm.trans ?_)
  change (e.modifyThread e.currentThreadId f).threads[e.currentThreadId]? = _
  rw [Emu.getElem?_modifyThread, Emu.getElem?_current, map_some, if_pos rfl]

theorem Emu.ret_setRet (e : Emu) (value : BitVec 64) :
    (e.setRet value).current.regs.x 0 = value := by
  rw [Emu.setRet, e.current_modifyThread]
  exact Function.update_self 0 value e.current.regs.x

theorem Emu.wants_blockOnLock (e : Emu) (a : Nat) : wants (e.blockOnLock a).current = some a := by
  rw [Emu.blockOnLock, e.current_modifyThread, wants, Option.some_or]

theorem Emu.current_mem (e : Emu) : e.current ∈ e.threads := getElem_mem e.current_lt

theorem Released.getElem?_current {l : Lock} {e e' : Emu} (hreleased : Released L l e e')
    (hrun : e.current.isRunnable e.tick = true) :
    e'.threads[e'.currentThreadId]? = some e.current := by
  rw [hreleased.tick_eq.2]
  refine hreleased.getElem? e.getElem?_current ?_
  rw [(ThreadContext.isRunnable_iff.mp hrun).2.2.2.2.2.1]
  exact (nomatch ·)

section Calls

variable {e : Emu} {c : SyncCall} (hinv : SyncInv L e)
  (hrun : e.current.isRunnable e.tick = true) {lock : Nat}
include hinv

theorem SyncInv.mutexTake {m : Nat} (hm : .mutex m ∈ L.locks) {t : ThreadContext}
    (ht : t ∈ e.threads) : ∃ m', e.mutexTake m t.id = some (e.withMaps m') ∧
      SyncInv L (e.withMaps m') ∧ Sets L e.maps m' (.mutex m) t.id := by
  have hid := (hinv.ids.id_bounds ht).2
  obtain ⟨m', htake, hsets⟩ := mutexTake_eq hinv.valid hm (show t.id < 2 ^ 64 by omega)
  exact ⟨m', htake, hinv.sets ht hsets, hsets⟩

theorem SyncInv.mutexRelock {m : Nat} (hm : .mutex m ∈ L.locks)
    (howner : e.mutexOwner m = e.currentTid) (hkind : e.mutexKind m = recursive) :
    (e.mutexRelock m = none ∧ e.DepthFull m) ∨
      ∃ m', e.mutexRelock m = some (e.withMaps m') ∧ Keeps L e.maps m' := by
  simp only [Emu.mutexRelock]
  split
  · exact .inr (write_count hinv.valid hm _)
  · next hfull => exact .inl ⟨rfl, howner, hkind, by omega⟩

include hrun in
theorem SyncInv.blockOnLock {l : Lock} (hl : l ∈ L.locks) (howner : l.owner e.maps ≠ 0) :
    SyncInv L (e.blockOnLock l.addr) :=
  hinv.block e.getElem?_current hrun hl howner

/-- A call that only sets its result, to one that does not say that it got a lock. -/
theorem SyncInv.fair_setRet (value : BitVec 64) (hnot : ∀ l, ¬ c.Took (e.setRet value) l) :
    Fair L e c (e.setRet value) :=
  ⟨hinv.setRet _ _, moves_modifyThread _, fun l htook => (hnot l htook).elim⟩

theorem SyncInv.acquire {m : Nat} (hm : .mutex m ∈ L.locks)
    (hc : c = .mutexLock m ∨ c = .mutexTrylock m) {rest : Option Emu}
    (hout : c.exec e = if e.mutexOwner m = 0 then
        (e.mutexTake m e.currentTid).bind fun e => some (e.setRet 0)
      else if e.mutexOwner m = e.currentTid ∧ e.mutexKind m = recursive then
        (e.mutexRelock m).bind fun e => some (e.setRet 0) else rest)
    (hrest : e.mutexOwner m ≠ 0 → ∃ e', rest = some e' ∧ Fair L e c e') : Ends L e c := by
  have hfair {m' : Maps} (hinv' : SyncInv L (e.withMaps m'))
      (hmoves : Moves L (fun _ => False) e.currentThreadId e (e.withMaps m'))
      (howner : (Lock.mutex m).owner m' = e.currentTid) :
      Fair L e c ((e.withMaps m').setRet 0) := by
    refine ⟨hinv'.setRet _ 0, ((hmoves.trans hinv.ids (moves_modifyThread _)).mono nofun), ?_⟩
    rintro l htook
    obtain rfl : l = .mutex m := by rcases hc with rfl | rfl <;> exact htook.1
    exact howner
  rw [Ends, hout]
  by_cases hfree : e.mutexOwner m = 0
  · obtain ⟨m', htake, hinv', hsets⟩ := hinv.mutexTake hm e.current_mem
    rw [if_pos hfree, show e.mutexTake m e.currentTid = _ from htake]
    exact .inr ⟨_, rfl, hfair hinv' (hsets.moves hfree) hsets.owner⟩
  rw [if_neg hfree]
  by_cases hrec : e.mutexOwner m = e.currentTid ∧ e.mutexKind m = recursive
  · rw [if_pos hrec]
    rcases hinv.mutexRelock hm hrec.1 hrec.2 with ⟨hnone, hfull⟩ | ⟨m', hrelock, hkeeps⟩
    · rw [hnone]
      exact .inl ⟨rfl, by rcases hc with rfl | rfl <;> exact hfull⟩
    · rw [hrelock]
      exact .inr ⟨_, rfl, hfair (hinv.keeps hkeeps) hkeeps.moves
        ((hkeeps.owners _ hm).trans hrec.1)⟩
  · rw [if_neg hrec]
    exact .inr (hrest hfree)

include hrun in
theorem SyncInv.fair_blockOnLock {l : Lock} (hl : l ∈ L.locks) (howner : l.owner e.maps ≠ 0)
    (hnot : ∀ l', c.Took (e.blockOnLock l.addr) l' → wants (e.blockOnLock l.addr).current = none) :
    Fair L e c (e.blockOnLock l.addr) := by
  refine ⟨hinv.blockOnLock hrun hl howner, moves_modifyThread _, fun l' htook => ?_⟩
  have hnone := hnot l' htook
  rw [e.wants_blockOnLock] at hnone
  cases hnone

include hrun in
theorem ends_mutexLock {m : Nat} (hm : .mutex m ∈ L.locks) : Ends L e (.mutexLock m) := by
  refine hinv.acquire hm (.inl rfl) rfl fun howner => ?_
  split
  · refine ⟨_, rfl, hinv.fair_setRet _ fun l htook => ?_⟩
    exact absurd ((e.ret_setRet _).symm.trans htook.2.2) (by decide)
  · exact ⟨_, rfl, hinv.fair_blockOnLock hrun hm howner fun _ htook => htook.2.1⟩

theorem ends_mutexTrylock {m : Nat} (hm : .mutex m ∈ L.locks) : Ends L e (.mutexTrylock m) := by
  refine hinv.acquire hm (.inr rfl) rfl fun _ =>
    ⟨_, rfl, hinv.fair_setRet _ fun l htook => ?_⟩
  exact absurd ((e.ret_setRet _).symm.trans htook.2.2) (by decide)

theorem ends_mutexUnlock {m : Nat} (hm : .mutex m ∈ L.locks) : Ends L e (.mutexUnlock m) := by
  right
  rw [SyncCall.exec, Emu.apiMutexUnlock]
  split
  · exact ⟨_, rfl, hinv.fair_setRet _ fun _ htook => htook⟩
  next hallowed =>
  dsimp only
  split
  · obtain ⟨m', hwrite, hkeeps⟩ := write_count hinv.valid hm
      ((e.maps.peek 4 (m + countOffset)).getD 1 - 1)
    rw [hwrite]
    exact ⟨_, rfl, (hinv.keeps hkeeps).setRet _ 0,
      hkeeps.moves.trans hinv.ids (moves_modifyThread _), fun _ htook => htook.elim⟩
  · next hcount =>
    obtain ⟨e', hrelease, hreleased⟩ := mutexRelease_released hinv hm
    rw [hrelease]
    refine ⟨_, rfl, (hinv.released hm hreleased).setRet _ 0, ?_, fun _ htook => htook.elim⟩
    refine ((hreleased.moves hinv hm).mono fun l hl => ?_).trans hinv.ids ?_
    · exact ⟨hl, by tauto, Nat.le_of_not_lt hcount⟩
    · rw [Emu.setRet, hreleased.tick_eq.2]
      exact moves_modifyThread _

theorem releaseForWait_cases {m : Nat} (hm : .mutex m ∈ L.locks) :
    (e.mutexOwner m ≠ e.currentTid ∧ e.releaseForWait m = some (e.setRet eperm, false)) ∨
      e.mutexOwner m = e.currentTid ∧ ∃ e', e.releaseForWait m = some (e', true) ∧
        Released L (.mutex m) e e' := by
  by_cases howner : e.mutexOwner m ≠ e.currentTid
  · exact .inl ⟨howner, if_pos howner⟩
  · obtain ⟨e', hrelease, hreleased⟩ := mutexRelease_released hinv hm
    refine .inr ⟨not_not.mp howner, e', (if_neg howner).trans ?_, hreleased⟩
    rw [hrelease]
    rfl

include hrun in
theorem ends_condWait {c m : Nat} (hm : .mutex m ∈ L.locks) : Ends L e (.condWait c m) := by
  right
  rw [SyncCall.exec, Emu.apiCondWait]
  rcases releaseForWait_cases hinv hm with ⟨-, hrefused⟩ | ⟨howner, e', hrelease, hreleased⟩
  · rw [hrefused]
    exact ⟨_, rfl, hinv.fair_setRet _ fun _ htook => htook⟩
  · rw [hrelease]
    refine ⟨_, rfl, (hinv.released hm hreleased).park (hreleased.getElem?_current hrun) ?_ hm,
      ?_, fun _ htook => htook.elim⟩
    · rw [hreleased.tick_eq.1]
      exact hrun
    · rw [hreleased.tick_eq.2]
      exact ((hreleased.moves hinv hm).mono fun l hl => ⟨hl, howner⟩).trans hinv.ids
        (moves_modifyThread _)

include hrun in
theorem ends_condTimedwait {m abstime now : Nat} (hm : .mutex m ∈ L.locks) :
    Ends L e (.condTimedwait m abstime now) := by
  rw [Ends, SyncCall.exec, Emu.apiCondTimedwait]
  rcases releaseForWait_cases hinv hm with ⟨-, hrefused⟩ | ⟨howner, e', hrelease, hreleased⟩
  · rw [hrefused]
    refine .inr ⟨_, rfl, hinv.fair_setRet _ fun l htook => ?_⟩
    exact htook.2.2 (e.ret_setRet eperm)
  rw [hrelease, bind_eq_bind, bind_some]
  dsimp only
  rw [if_pos rfl, addU64]
  by_cases habstime : abstime + 8 < 2 ^ 64
  swap
  · rw [if_neg habstime]
    exact .inl ⟨rfl, howner, Nat.le_of_not_lt habstime⟩
  right
  rw [if_pos habstime, bind_eq_bind, bind_some]
  have hinv' := hinv.released hm hreleased
  have hcurrent := hreleased.getElem?_current hrun
  have hreleases : Moves L (fun l => (SyncCall.condTimedwait m abstime now).Releases e l)
      e.currentThreadId e e' := (hreleased.moves hinv hm).mono fun l hl => ⟨hl, howner, habstime⟩
  by_cases hfree : e'.mutexOwner m = 0
  · obtain ⟨m', htake, hinv'', hsets⟩ := hinv'.mutexTake hm e'.current_mem
    rw [if_pos hfree, show e'.mutexTake m e'.currentTid = _ from htake]
    refine ⟨_, rfl, hinv''.setRet _ _, ?_, ?_⟩
    · refine hreleases.trans hinv.ids ((hsets.moves hfree).trans hinv'.ids ?_)
      rw [← hreleased.tick_eq.2]
      exact moves_modifyThread _
    · rintro l ⟨rfl, -⟩
      have hsame : e'.current = e.current :=
        Option.some.inj (e'.getElem?_current.symm.trans hcurrent)
      exact hsets.owner.trans (congrArg ThreadContext.id hsame)
  · rw [if_neg hfree]
    refine ⟨_, rfl, hinv'.block hcurrent ?_ hm hfree, ?_, fun l htook => ?_⟩
    · rw [hreleased.tick_eq.1]
      exact hrun
    · refine hreleases.trans hinv.ids ?_
      rw [← hreleased.tick_eq.2]
      exact moves_modifyThread _
    · exact (some_ne_none m ((e'.wants_blockOnLock m).symm.trans htook.2.1)).elim

theorem SyncInv.resumeCondWaiter {idx : Nat} (hidx : idx < e.threads.length) :
    ∃ e', e.resumeCondWaiter idx = some e' ∧ SyncInv L e' ∧
      (∀ k, Moves L (fun _ => False) k e e') ∧ e'.threads.map ThreadContext.condWait =
        (e.threads.map ThreadContext.condWait).set idx none := by
  obtain ⟨t, ht⟩ : ∃ t, e.threads[idx]? = some t := ⟨_, List.getElem?_eq_getElem hidx⟩
  rw [Emu.resumeCondWaiter, ht, bind_eq_bind, bind_some]
  cases hcond : t.condWait with
  | none =>
    refine ⟨e, rfl, hinv, fun _ => .refl e, ext_getElem? fun j => ?_⟩
    rw [List.getElem?_set, List.getElem?_map]
    split
    · next hij =>
      subst hij
      rw [ht, map_some, hcond, if_pos (by rwa [length_map])]
    · rfl
  | some wait =>
    obtain ⟨c, m⟩ := wait
    have hok := hinv.threads t (mem_of_getElem? ht)
    have hm := hok.cond c m hcond
    have hrun := hok.isRunnable_leaveCond (hcond ▸ some_ne_none _)
    have hinv' := hinv.leaveCond idx
    have ht' : (e.modifyThread idx fun t => { t with condWait := none }).threads[idx]? =
        some { t with condWait := none } := by
      rw [Emu.getElem?_modifyThread, ht, map_some, if_pos rfl]
    have hconds := e.condWaits_leaveCond idx
    have hwants : wants t = some m := by
      rw [wants, hok.alone.resolve_right (hcond ▸ some_ne_none _), hcond]
      rfl
    dsimp only
    split
    · next hfree =>
      obtain ⟨m', htake, hinv'', hsets⟩ := hinv'.mutexTake hm (mem_of_getElem? ht')
      rw [show Emu.mutexTake _ m t.id = _ from htake]
      refine ⟨_, rfl, hinv''.setRet idx 0, fun k => moves_modify (hsets.moves (k := k) hfree).owners
        (List.modify_modify_eq _ _ idx e.threads) ?_, (Emu.map_modifyThread ?_).trans hconds⟩
      · intro u hu
        obtain rfl := Option.some.inj (ht.symm.trans hu)
        refine .inr ⟨?_, fun l hl hwant => ?_⟩
        · simp [wants, ThreadContext.setRet, hok.alone.resolve_right (hcond ▸ some_ne_none _)]
        · obtain rfl := Lock.eq_of_addr hm hl (Option.some.inj (hwants.symm.trans hwant))
          rw [← hinv.ids.id_eq ht]
          exact hsets.owner
      · exact fun _ => rfl
    · next howner =>
      refine ⟨_, rfl, hinv'.block ht' hrun hm howner, fun k => moves_modify (fun _ _ _ => .inr rfl)
        (List.modify_modify_eq _ _ idx e.threads) ?_, (Emu.map_modifyThread ?_).trans hconds⟩
      · intro u hu
        obtain rfl := Option.some.inj (ht.symm.trans hu)
        exact .inl hwants.symm
      · exact fun _ => rfl

theorem SyncInv.condWakeLoop (c : Nat) (all : Bool) (fuel : Nat) :
    ∃ e', Emu.condWakeLoop c all fuel e = some e' ∧ SyncInv L e' ∧
      (∀ k, Moves L (fun _ => False) k e e') ∧
      (all = true → e.condWaiters c ≤ fuel → e'.condWaiters c = 0) := by
  induction fuel generalizing e with
  | zero => exact ⟨e, rfl, hinv, fun _ => .refl e, fun _ hle => Nat.le_zero.mp hle⟩
  | succ fuel ih =>
    rw [Emu.condWakeLoop]
    rcases condWaiter_cases e c with ⟨i, hnext, hi, hless⟩ | ⟨hnext, hnone⟩
    · obtain ⟨e', hresume, hinv', hmoves, hconds⟩ := hinv.resumeCondWaiter hi
      rw [hnext]
      dsimp only
      rw [hresume, bind_eq_bind, bind_some]
      cases all with
      | false => exact ⟨e', rfl, hinv', hmoves, (nomatch ·)⟩
      | true =>
        obtain ⟨e'', hloop, hinv'', hmoves', hzero⟩ := ih hinv'
        refine ⟨e'', hloop, hinv'', fun k => (hmoves k).trans hinv.ids (hmoves' k),
          fun _ hle => hzero rfl ?_⟩
        rw [Emu.condWaiters, hconds]
        omega
    · rw [hnext]
      exact ⟨e, rfl, hinv, fun _ => .refl e, fun _ _ => hnone⟩

theorem ends_condWake (c : Nat) (all : Bool) : Ends L e (.condWake c all) := by
  right
  obtain ⟨e', hloop, hinv', hmoves, -⟩ := hinv.condWakeLoop c all e.threads.length
  rw [SyncCall.exec, Emu.apiCondWake, hloop]
  refine ⟨_, rfl, hinv'.setRet _ 0, ?_, fun _ htook => htook.elim⟩
  refine ((hmoves _).trans hinv.ids ?_).mono fun _ => False.elim
  exact moves_modify (fun _ _ _ => .inr rfl) rfl fun _ _ => .inl rfl

theorem condBroadcast_all {c : Nat} {e' : Emu} (hwake : e.apiCondWake c true = some e') :
    e'.condWaiters c = 0 := by
  obtain ⟨e'', hloop, -, -, hzero⟩ := hinv.condWakeLoop c true e.threads.length
  rw [Emu.apiCondWake, hloop] at hwake
  cases hwake
  have hret : (e''.setRet 0).threads.map ThreadContext.condWait =
      e''.threads.map ThreadContext.condWait := by
    refine Emu.map_modifyThread ?_
    exact fun _ => rfl
  rw [Emu.condWaiters, hret]
  refine hzero rfl ?_
  rw [Emu.condWaiters, ← length_map ThreadContext.condWait]
  exact countP_le_length

include hrun in
theorem ends_unfairLock (hl : .unfair lock ∈ L.locks) :
    Ends L e (.unfairLock lock) := by
  right
  rw [SyncCall.exec, Emu.apiUnfairLock]
  split
  · next hfree =>
    obtain ⟨m', hwrite, hsets⟩ := write_owner hinv.valid hl (v := e.currentTid % 2 ^ 32)
      (Nat.mod_lt _ (by decide))
    refine ⟨_, hwrite, hinv.sets e.current_mem hsets, hsets.moves hfree, ?_⟩
    rintro l ⟨rfl, -⟩
    exact hsets.owner
  · next howner =>
    exact ⟨_, rfl, hinv.fair_blockOnLock hrun hl howner fun _ htook => htook.2⟩

theorem ends_unfairTrylock (hl : .unfair lock ∈ L.locks) :
    Ends L e (.unfairTrylock lock) := by
  right
  rw [SyncCall.exec, Emu.apiUnfairTrylock]
  split
  · next hfree =>
    obtain ⟨m', hwrite, hsets⟩ := write_owner hinv.valid hl (v := e.currentTid % 2 ^ 32)
      (Nat.mod_lt _ (by decide))
    rw [show e.write 4 lock (e.currentTid % 2 ^ 32) = _ from hwrite]
    refine ⟨_, rfl, (hinv.sets e.current_mem hsets).setRet _ 1,
      (hsets.moves hfree).trans hinv.ids (moves_modifyThread _), ?_⟩
    rintro l ⟨rfl, -⟩
    exact hsets.owner
  · refine ⟨_, rfl, hinv.fair_setRet _ fun l htook => ?_⟩
    exact absurd ((e.ret_setRet 0).symm.trans htook.2) (by decide)

theorem ends_unfairUnlock (hl : .unfair lock ∈ L.locks) :
    Ends L e (.unfairUnlock lock) := by
  obtain ⟨e', hunlock, hreleased⟩ := unfairUnlock_released hinv hl
  exact .inr ⟨e', hunlock, hinv.released hl hreleased, hreleased.moves hinv hl,
    fun _ htook => htook.elim⟩

end Calls

end Mwemu.Macos
