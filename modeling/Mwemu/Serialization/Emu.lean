import Mwemu.Serialization.ThreadContext

/-!
# Dumping and restoring the emulator

The round trip of an emulator through its serialised form: threads, memory and the current thread
come back, the lock table and part of what the scheduler reads do not. So the restored emulator
schedules its threads as the dumped one does, and wakes those that wait for a critical section, just
when no thread was parked by a field that is not serialised and none was waiting for a section.
-/

namespace Mwemu.Serialization

open Mwemu.Threading List Option

variable {isa : Isa} {canOpen : String → Bool}

inductive Arch where
  | x86
  | x86_64
  | aarch64
  deriving DecidableEq, Repr

def Arch.is64bits : Arch → Bool
  | .x86 => false
  | .x86_64 | .aarch64 => true

structure Config where
  arch : Arch
  traceFilename : Option String

structure Emu (isa : Isa) where
  cfg : Config
  maps : Maps
  tick : Nat
  threads : List (ThreadContext isa)
  currentThreadId : Nat
  globalLocks : GlobalLocks

structure SerializableEmu (isa : Isa) where
  cfg : Config
  maps : Maps
  tick : Nat
  threads : List (SerializableThreadContext isa)
  currentThreadId : Nat
  currentThread : SerializableThreadArch isa

def Emu.serialize (emu : Emu isa) : Option (SerializableEmu isa) :=
  emu.threads[emu.currentThreadId]?.map fun current =>
    { cfg := emu.cfg
      maps := emu.maps
      tick := emu.tick
      threads := emu.threads.map ThreadContext.serialize
      currentThreadId := emu.currentThreadId
      currentThread := current.arch.serialize }

/-- The encoding to bytes and back; the log of code writes is the one field it skips. -/
def SerializableEmu.transfer (emu : SerializableEmu isa) : SerializableEmu isa :=
  { emu with maps := { emu.maps with codeWrites := [] } }

/-- A panic if the trace file cannot be opened. The current thread gets the state that was stored for
it apart, whatever its architecture was. -/
def SerializableEmu.restore (canOpen : String → Bool) (emu : SerializableEmu isa) :
    Option (Emu isa) := do
  if emu.cfg.traceFilename.any fun filename => !canOpen filename then none
  let threads ← emu.threads.mapM SerializableThreadContext.restore
  let current ← emu.currentThread.restore
  return {
    cfg := emu.cfg
    maps := { emu.maps with is64bits := emu.cfg.arch.is64bits || emu.maps.is64bits }
    tick := emu.tick
    threads := threads.modify emu.currentThreadId fun t => { t with arch := current }
    currentThreadId := emu.currentThreadId
    globalLocks := .new }

def Emu.roundTrip (canOpen : String → Bool) (emu : Emu isa) : Option (Emu isa) :=
  emu.serialize.bind fun dumped => dumped.transfer.restore canOpen

def Emu.restored (emu : Emu isa) : Emu isa :=
  { emu with
    maps := { emu.maps with
      codeWrites := []
      is64bits := emu.cfg.arch.is64bits || emu.maps.is64bits }
    threads := emu.threads.map ThreadContext.restored
    globalLocks := .new }

theorem mapM_restore_serialize (threads : List (ThreadContext isa)) :
    (threads.map ThreadContext.serialize).mapM SerializableThreadContext.restore =
      some (threads.map ThreadContext.restored) := by
  induction threads with
  | nil => rfl
  | cons t threads ih =>
    rw [map_cons, mapM_cons, ih, ThreadContext.restore_serialize]
    rfl

theorem Emu.roundTrip_eq {emu : Emu isa}
    (hcurrent : emu.currentThreadId < emu.threads.length)
    (htrace : ∀ filename, emu.cfg.traceFilename = some filename → canOpen filename = true) :
    emu.roundTrip canOpen = some emu.restored := by
  have hopen : (emu.cfg.traceFilename.any fun filename => !canOpen filename) = false := by
    cases hfile : emu.cfg.traceFilename with
    | none => rfl
    | some filename => rw [any_some, htrace filename hfile, Bool.not_true]
  -- the state stored apart is the one the current thread already has
  have hthreads : ((emu.threads.map ThreadContext.restored).modify emu.currentThreadId fun t =>
      { t with arch := emu.threads[emu.currentThreadId].arch.traced }) =
        emu.threads.map ThreadContext.restored := by
    refine ext_getElem? fun i => ?_
    rw [List.getElem?_modify, List.getElem?_map]
    split
    · next hi =>
      subst hi
      rw [List.getElem?_eq_getElem hcurrent]
      rfl
    · exact map_id'
  simp only [roundTrip, serialize, List.getElem?_eq_getElem hcurrent, map_some,
    bind_some, SerializableEmu.restore, SerializableEmu.transfer, hopen,
    mapM_restore_serialize, ArchThreadState.restore_serialize, bind_eq_bind, hthreads]
  rfl

theorem Emu.of_roundTrip {emu emu' : Emu isa}
    (htrip : emu.roundTrip canOpen = some emu') : emu.currentThreadId < emu.threads.length ∧
      ∀ filename, emu.cfg.traceFilename = some filename → canOpen filename = true := by
  rw [roundTrip, bind_eq_some_iff] at htrip
  obtain ⟨dumped, hdumped, hrestore⟩ := htrip
  rw [serialize, map_eq_some_iff] at hdumped
  obtain ⟨current, hcurrent, hdumped⟩ := hdumped
  refine ⟨(List.getElem?_eq_some_iff.mp hcurrent).1, fun filename hfile => ?_⟩
  by_contra hclosed
  rw [Bool.not_eq_true] at hclosed
  rw [← hdumped, SerializableEmu.restore, SerializableEmu.transfer] at hrestore
  simp only [hfile, any_some, hclosed, Bool.not_false, if_true] at hrestore
  cases hrestore

/-! ### Critical sections -/

def wake (tid : Tid) : List (ThreadContext isa) → List (ThreadContext isa)
  | [] => []
  | t :: threads =>
    if t.id = tid then { t with blockedOnCs := none, wakeTick := 0 } :: threads
    else t :: wake tid threads

def Emu.leaveCriticalSection (emu : Emu isa) (cs : CsPtr) (tid : Tid) : Emu isa :=
  { emu with
    globalLocks := (emu.globalLocks.leave cs tid).2
    threads := ((emu.globalLocks.leave cs tid).1.toList).foldl (fun ts w => wake w ts) emu.threads
    tick := emu.tick + 1 }

def Emu.leaves (emu : Emu isa) (cs : CsPtr) (tids : List Tid) : Emu isa :=
  tids.foldl (fun emu tid => emu.leaveCriticalSection cs tid) emu

/-- The thread is there and no longer blocked on a critical section. -/
def Emu.Free (emu : Emu isa) (i : Nat) : Prop :=
  ∃ t, emu.threads[i]? = some t ∧ t.blockedOnCs = none

theorem map_id_wake (tid : Tid) (threads : List (ThreadContext isa)) :
    (wake tid threads).map ThreadContext.id = threads.map ThreadContext.id := by
  induction threads with
  | nil => rfl
  | cons t threads ih =>
    rw [wake]
    split
    · rfl
    · rw [map_cons, map_cons, ih]

theorem getElem?_wake (tid : Tid) (threads : List (ThreadContext isa)) (i : Nat) :
    (wake tid threads)[i]? = if (threads.map ThreadContext.id).idxOf? tid = some i then
        threads[i]?.map fun t => { t with blockedOnCs := none, wakeTick := 0 }
      else threads[i]? := by
  induction threads generalizing i with
  | nil => rfl
  | cons t threads ih =>
    rw [wake, map_cons, List.idxOf?_cons]
    by_cases hid : t.id = tid
    · cases i with
      | zero => simp [hid]
      | succ i => simp [hid]
    · cases i with
      | zero => simp [hid]
      | succ i => simp [hid, ih]

theorem blockedOnCs_foldl_wake {woken : List Tid} {threads : List (ThreadContext isa)} {i : Nat}
    {t : ThreadContext isa} (ht : threads[i]? = some t) :
    ∃ t', (woken.foldl (fun ts w => wake w ts) threads)[i]? = some t' ∧
      (t'.blockedOnCs = none ↔ t.blockedOnCs = none ∨
        ∃ tid ∈ woken, (threads.map ThreadContext.id).idxOf? tid = some i) := by
  induction woken generalizing threads t with
  | nil => exact ⟨t, ht, by simp⟩
  | cons w woken ih =>
    have hwake := getElem?_wake w threads i
    rw [ht] at hwake
    split at hwake
    · next hfirst =>
      obtain ⟨t', ht', hiff⟩ := ih hwake
      exact ⟨t', ht', by simp [hiff, hfirst]⟩
    · next hfirst =>
      obtain ⟨t', ht', hiff⟩ := ih hwake
      refine ⟨t', ht', ?_⟩
      rw [hiff, map_id_wake]
      simp [hfirst]

theorem Emu.threads_leaves (emu : Emu isa) (cs : CsPtr) (tids : List Tid) :
    (emu.leaves cs tids).threads =
      (CritState.wokenBy tids (emu.globalLocks.critState cs)).foldl (fun ts w => wake w ts)
        emu.threads := by
  induction tids generalizing emu with
  | nil => rfl
  | cons tid tids ih =>
    obtain ⟨hwoken, hstate⟩ := emu.globalLocks.leave_spec cs tid
    rw [leaves, foldl_cons, ← leaves, ih, CritState.wokenBy, foldl_append, ← hwoken]
    congr 1
    rw [leaveCriticalSection, hstate cs, if_pos rfl]

theorem Emu.blockedOnCs_leaves (emu : Emu isa) (cs : CsPtr) (tids : List Tid) {i : Nat}
    {t : ThreadContext isa} (ht : emu.threads[i]? = some t) :
    ∃ t', (emu.leaves cs tids).threads[i]? = some t' ∧
      (t'.blockedOnCs = none ↔ t.blockedOnCs = none ∨
        ∃ tid ∈ CritState.wokenBy tids (emu.globalLocks.critState cs),
          (emu.threads.map ThreadContext.id).idxOf? tid = some i) := by
  rw [threads_leaves]
  exact blockedOnCs_foldl_wake ht

/-! ### Transparency -/

/-- The restored emulator has the threads, memory and current thread of the dumped one, schedules
each thread as it does, and the leaves that free a blocked thread free it in both. -/
structure Transparent (emu emu' : Emu isa) : Prop where
  threads : List.Forall₂ (fun t t' => t'.id = t.id ∧ t.arch.SameState t'.arch ∧
    ∀ tick, t'.isRunnable tick = t.isRunnable tick) emu.threads emu'.threads
  memory : emu'.maps.memSlab = emu.maps.memSlab ∧ emu'.maps.maps = emu.maps.maps ∧
    emu'.maps.nameMap = emu.maps.nameMap
  current : emu'.currentThreadId = emu.currentThreadId
  wakes : ∀ i t cs tids, emu.threads[i]? = some t → t.blockedOnCs = some cs →
    (emu.leaves cs tids).Free i → (emu'.leaves cs tids).Free i

/-- A dump of the emulator loses nothing: it has a current thread and its trace file can be opened,
every thread that has exited or waits for anything but a critical section is held otherwise as
well, and no thread waits for a critical section that has an owner. -/
structure Restorable (canOpen : String → Bool) (emu : Emu isa) : Prop where
  current : emu.currentThreadId < emu.threads.length
  trace : ∀ filename, emu.cfg.traceFilename = some filename → canOpen filename = true
  held : ∀ t ∈ emu.threads, t.Parked → t.suspended = true ∨ t.blockedOnCs.isSome = true
  notQueued : ∀ i t cs, emu.threads[i]? = some t → t.blockedOnCs = some cs →
    (emu.threads.map ThreadContext.id).idxOf? t.id = some i →
    (emu.globalLocks.critState cs).ownerTid ≠ none →
    t.id ∉ (emu.globalLocks.critState cs).waitQueue

theorem Emu.wokenBy_restored (emu : Emu isa) (cs : CsPtr) (tids : List Tid) :
    CritState.wokenBy tids (emu.restored.globalLocks.critState cs) = [] :=
  eq_nil_iff_forall_not_mem.mpr fun _ hmem => (CritState.mem_wokenBy hmem).1 rfl

theorem Emu.forall₂_restored_iff (emu : Emu isa) :
    List.Forall₂ (fun t t' => t'.id = t.id ∧ t.arch.SameState t'.arch ∧
      ∀ tick, t'.isRunnable tick = t.isRunnable tick) emu.threads emu.restored.threads ↔
    ∀ t ∈ emu.threads, t.Parked → t.suspended = true ∨ t.blockedOnCs.isSome = true := by
  rw [restored, forall₂_map_right_iff, forall₂_same]
  refine forall₂_congr fun t _ => ?_
  rw [← t.isRunnable_restored_iff]
  exact ⟨fun h => h.2.2, fun h => ⟨rfl, t.arch.sameState_traced, h⟩⟩

theorem Emu.wakes_restored_iff (emu : Emu isa) :
    (∀ i t cs tids, emu.threads[i]? = some t → t.blockedOnCs = some cs →
      (emu.leaves cs tids).Free i → (emu.restored.leaves cs tids).Free i) ↔
    ∀ i t cs, emu.threads[i]? = some t → t.blockedOnCs = some cs →
      (emu.threads.map ThreadContext.id).idxOf? t.id = some i →
      (emu.globalLocks.critState cs).ownerTid ≠ none →
      t.id ∉ (emu.globalLocks.critState cs).waitQueue := by
  constructor
  · intro hwakes i t cs ht hblocked hfirst howner hqueued
    obtain ⟨tids, htids⟩ := CritState.exists_wokenBy howner hqueued
    obtain ⟨t', ht', hfree⟩ := emu.blockedOnCs_leaves cs tids ht
    have hrestored := hwakes i t cs tids ht hblocked
      ⟨t', ht', hfree.mpr (.inr ⟨t.id, htids, hfirst⟩)⟩
    obtain ⟨u, hu, hnone⟩ := hrestored
    rw [Emu.threads_leaves, emu.wokenBy_restored, foldl_nil, Emu.restored, List.getElem?_map,
      ht] at hu
    cases hu
    cases hblocked.symm.trans hnone
  · rintro hidle i t cs tids ht hblocked ⟨t', ht', hnone⟩
    obtain ⟨u, hu, hfree⟩ := emu.blockedOnCs_leaves cs tids ht
    cases ht'.symm.trans hu
    rcases hfree.mp hnone with hnone | ⟨tid, htid, hfirst⟩
    · cases hblocked.symm.trans hnone
    have hid : t.id = tid := by
      rw [List.idxOf?, List.findIdx?_eq_some_iff_getElem] at hfirst
      obtain ⟨hi, htid, -⟩ := hfirst
      rw [getElem_map, (List.getElem?_eq_some_iff.mp ht).2] at htid
      exact eq_of_beq htid
    subst hid
    obtain ⟨howner, hqueued⟩ := CritState.mem_wokenBy htid
    exact absurd hqueued (hidle i t cs ht hblocked hfirst howner)

/-- Dumping and restoring is transparent just when nothing the restore drops is in use. -/
theorem transparent_roundTrip_iff_restorable (canOpen : String → Bool) (emu : Emu isa) :
    (∃ emu', emu.roundTrip canOpen = some emu' ∧ Transparent emu emu') ↔
      Restorable canOpen emu := by
  constructor
  · rintro ⟨emu', htrip, htransparent⟩
    obtain ⟨hcurrent, htrace⟩ := Emu.of_roundTrip htrip
    rw [Emu.roundTrip_eq hcurrent htrace, Option.some.injEq] at htrip
    subst htrip
    exact ⟨hcurrent, htrace, emu.forall₂_restored_iff.mp htransparent.threads,
      emu.wakes_restored_iff.mp htransparent.wakes⟩
  · intro hrestorable
    refine ⟨emu.restored, Emu.roundTrip_eq hrestorable.current hrestorable.trace, ?_⟩
    exact ⟨emu.forall₂_restored_iff.mpr hrestorable.held, ⟨rfl, rfl, rfl⟩, rfl,
      emu.wakes_restored_iff.mpr hrestorable.notQueued⟩

/-! ### What a dump loses -/

def unitIsa : Isa := ⟨Unit, Unit, Unit, Unit, Unit, (), (), ()⟩

def idleThread (tid : Tid) : ThreadContext unitIsa where
  id := tid
  suspended := false
  wakeTick := 0
  blockedOnCs := none
  clearChildTid := 0
  handle := 0
  arch := .aarch64 () none
  exitValue := none
  joining := none
  blockedOnLock := none
  condWait := none
  exclusive := none

/-- Thread 1 owns a section that thread 2 waits for, and thread 3 has exited. -/
def contended : Emu unitIsa where
  cfg := ⟨.x86_64, none⟩
  maps := .default
  tick := 7
  threads := [idleThread 1, { idleThread 2 with blockedOnCs := some 0x10 },
    { idleThread 3 with exitValue := some 0 }]
  currentThreadId := 0
  globalLocks := GlobalLocks.new.set 0x10 ⟨some 1, 1, [2]⟩

/-- After a restore, thread 2 is blocked for good and the exited thread 3 runs again. -/
theorem roundTrip_loses_wakeup_and_exit : ∃ emu', contended.roundTrip (fun _ => true) = some emu' ∧
      (contended.leaves 0x10 [1]).Free 1 ∧ ¬ (emu'.leaves 0x10 [1]).Free 1 ∧
      (contended.threads.map fun t => t.isRunnable 7) = [true, false, false] ∧
      (emu'.threads.map fun t => t.isRunnable 7) = [true, false, true] := by
  refine ⟨contended.restored, Emu.roundTrip_eq (by decide) nofun,
    ⟨_, rfl, by decide⟩, ?_, by decide, by decide⟩
  rintro ⟨t, ht, hnone⟩
  cases ht
  cases hnone

end Mwemu.Serialization
