import Mwemu.Lib.Run
import Mwemu.Lib.Slab

/-!
# Object handles

The table of the objects behind handles. A removal under the wrong type takes the entry out and puts
it back, which leaves the slab as it was, since the slot freed last is used first.
-/

namespace Mwemu.ObjectHandle

open Mwemu.Lib

inductive Kind where
  | file
  | mapping
  | heap
  | section
  deriving DecidableEq, Repr

/-- The objects, which the table only stores, except that it closes a file it removes. -/
structure Objects where
  Object : Kind → Type
  close : Object .file → Object .file

def Objects.closed (O : Objects) : (kind : Kind) → O.Object kind → O.Object kind
  | .file => O.close
  | _ => id

inductive HandleType (O : Objects) where
  | reserved
  | handle (kind : Kind) (object : O.Object kind)

variable {O : Objects} {kind : Kind}

def HandleType.as (kind : Kind) : HandleType O → Option (O.Object kind)
  | .reserved => none
  | .handle k object => if hk : k = kind then some (hk ▸ object) else none

structure HandleManagement (O : Objects) where
  numberOfHandle : Nat
  handleTypes : Slab (HandleType O)

namespace HandleManagement

def new : HandleManagement O := ⟨0, Slab.empty.insert .reserved⟩

variable (h : HandleManagement O)

/-- The common body of the insertions; the key is cut to `u32`. -/
def insert (entry : HandleType O) : HandleManagement O × Nat :=
  (⟨h.numberOfHandle + 1, h.handleTypes.insert entry⟩, h.handleTypes.nextKey % 2 ^ 32)

def insertFileHandle (fh : O.Object .file) := h.insert (.handle .file fh)

def insertMappingHandle (mh : O.Object .mapping) := h.insert (.handle .mapping mh)

def insertHeapHandle (hh : O.Object .heap) := h.insert (.handle .heap hh)

def insertSectionHandle (sh : O.Object .section) := h.insert (.handle .section sh)

/-- The common body of the removals. -/
def remove (kind : Kind) (key : Nat) : HandleManagement O × Option (O.Object kind) :=
  match h.handleTypes.get key with
  | none => (h, none)
  | some entry =>
    match entry.as kind with
    | some object => (⟨h.numberOfHandle - 1, h.handleTypes.remove key⟩, some object)
    | none => ({ h with handleTypes := (h.handleTypes.remove key).insert entry }, none)

def getMutFileHandle (key : Nat) : Option (O.Object .file) :=
  (h.handleTypes.get key).bind (HandleType.as .file)

/-- The file is closed where it is, before it is taken out. -/
def removeFileHandle (key : Nat) : HandleManagement O × Option (O.Object .file) :=
  match h.getMutFileHandle key with
  | none => (h, none)
  | some fh =>
    let closed := { h with handleTypes := h.handleTypes.set key (.handle .file (O.close fh)) }
    closed.remove .file key

def removeMappingHandle := h.remove .mapping

def removeHeapHandle := h.remove .heap

def removeSectionHandle := h.remove .section

end HandleManagement

inductive Call (O : Objects) where
  | insert (kind : Kind) (object : O.Object kind)
  | remove (kind : Kind) (key : Nat)

def HandleManagement.inserts (h : HandleManagement O) :
    (kind : Kind) → O.Object kind → HandleManagement O × Nat
  | .file => h.insertFileHandle
  | .mapping => h.insertMappingHandle
  | .heap => h.insertHeapHandle
  | .section => h.insertSectionHandle

def HandleManagement.removes (h : HandleManagement O) :
    (kind : Kind) → Nat → HandleManagement O × Option (O.Object kind)
  | .file => h.removeFileHandle
  | .mapping => h.removeMappingHandle
  | .heap => h.removeHeapHandle
  | .section => h.removeSectionHandle

/-- The table, with the keys that insertions have returned and no removal has succeeded for since,
and what was inserted under them. -/
structure Tracked (O : Objects) where
  table : HandleManagement O
  issued : List (Nat × HandleType O)

namespace Tracked

def start : Tracked O := ⟨.new, []⟩

def step (s : Tracked O) : Call O → Option (Tracked O)
  | .insert kind object =>
    let r := s.table.inserts kind object
    some ⟨r.1, s.issued ++ [(r.2, .handle kind object)]⟩
  | .remove kind key =>
    let r := s.table.removes kind key
    some ⟨r.1, if r.2.isSome then s.issued.filter (·.1 ≠ key) else s.issued⟩

/-- The slot that an insertion takes can be told by its key. -/
def KeyFits (s : Tracked O) : Call O → Prop
  | .insert .. => s.table.handleTypes.nextKey < 2 ^ 32
  | .remove .. => True

end Tracked

/-- The table holds the issued keys with what was inserted under them, and the reserved entry. -/
structure Held (s : Tracked O) : Prop where
  holds : ∀ key entry, s.table.handleTypes.get key = some entry ↔
    key = 0 ∧ entry = .reserved ∨ (key, entry) ∈ s.issued
  distinct : (s.issued.map Prod.fst).Nodup
  nonzero : 0 ∉ s.issued.map Prod.fst
  count : s.table.numberOfHandle = s.issued.length

/-- A removal also gives back what was inserted under the key, and under another type it refuses and
changes nothing. -/
structure Sound (s : Tracked O) : Prop extends Held s where
  right : ∀ kind key x, (key, .handle kind x) ∈ s.issued →
    (s.table.removes kind key).2 = some (O.closed kind x)
  wrong : ∀ kind key, (∀ x, (key, .handle kind x) ∉ s.issued) →
    s.table.removes kind key = (s.table, none)

/-! ### One call -/

/-- What a removal does, by the entry under the key. -/
structure Removes (h : HandleManagement O) (closed : O.Object kind → O.Object kind) (key : Nat)
    (r : HandleManagement O × Option (O.Object kind)) : Prop where
  right : ∀ x, h.handleTypes.get key = some (.handle kind x) → r.2 = some (closed x) ∧
    r.1.numberOfHandle = h.numberOfHandle - 1 ∧
    ∀ k, r.1.handleTypes.get k = if k = key then none else h.handleTypes.get k
  wrong : (∀ x, h.handleTypes.get key ≠ some (.handle kind x)) → r = (h, none)

theorem as_eq_some {e : HandleType O} {x : O.Object kind} :
    e.as kind = some x ↔ e = .handle kind x := by
  cases e with
  | reserved => exact ⟨nofun, nofun⟩
  | handle k object =>
    rw [HandleType.as]
    by_cases hk : k = kind
    · subst hk
      simp
    · rw [dif_neg hk]
      exact ⟨nofun, fun heq => absurd (HandleType.handle.inj heq).1 hk⟩

section Removals

variable (h : HandleManagement O) (key : Nat)

theorem removes_remove : Removes h id key (h.remove kind key) where
  right x hget := by
    rw [HandleManagement.remove, hget]
    dsimp only
    rw [as_eq_some.mpr rfl]
    exact ⟨rfl, rfl, h.handleTypes.get_remove key⟩
  wrong hwrong := by
    rw [HandleManagement.remove]
    cases hget : h.handleTypes.get key with
    | none => rfl
    | some e =>
      have hnone : e.as kind = none := Option.eq_none_iff_forall_ne_some.mpr fun x hx =>
        hwrong x (hget.trans (congrArg some (as_eq_some.mp hx)))
      simp only [hnone, h.handleTypes.insert_remove hget]

theorem removes_removeFileHandle : Removes h O.close key (h.removeFileHandle key) where
  right fh hget := by
    have hlive : (h.handleTypes.get key).isSome := by rw [hget, Option.isSome_some]
    have hset := h.handleTypes.get_set hlive (.handle .file (O.close fh))
    obtain ⟨hr, hn, hrest⟩ := (removes_remove
      { h with handleTypes := h.handleTypes.set key (.handle .file (O.close fh)) } key).right
      (O.close fh) ((hset key).trans (if_pos rfl))
    rw [HandleManagement.removeFileHandle, HandleManagement.getMutFileHandle, hget]
    refine ⟨hr, hn, fun k => (hrest k).trans ?_⟩
    split
    · rfl
    · next hne => exact (hset k).trans (if_neg hne)
  wrong hwrong := by
    have hnone : h.getMutFileHandle key = none := by
      refine Option.eq_none_iff_forall_ne_some.mpr fun fh hfile => ?_
      obtain ⟨e, hget, he⟩ := Option.bind_eq_some_iff.mp hfile
      exact hwrong fh (hget.trans (congrArg some (as_eq_some.mp he)))
    rw [HandleManagement.removeFileHandle, hnone]

theorem removes_removes (kind : Kind) : Removes h (O.closed kind) key (h.removes kind key) :=
  match kind with
  | .file => removes_removeFileHandle h key
  | .mapping | .heap | .section => removes_remove h key

theorem inserts_eq (kind : Kind) (object : O.Object kind) :
    h.inserts kind object = h.insert (.handle kind object) := by
  cases kind <;> rfl

end Removals

namespace Held

variable {s s' : Tracked O} (hs : Held s)
include hs

theorem mem_issued {x : O.Object kind} {key : Nat} :
    (key, .handle kind x) ∈ s.issued ↔ s.table.handleTypes.get key = some (.handle kind x) := by
  rw [hs.holds, or_iff_right fun hreserved => nomatch hreserved.2]

theorem sound : Sound s where
  toHeld := hs
  right kind key x hmem := ((removes_removes _ key kind).right x (hs.mem_issued.mp hmem)).1
  wrong kind key hwrong := (removes_removes _ key kind).wrong fun x hget =>
    hwrong x (hs.mem_issued.mpr hget)

theorem remove {key : Nat} (hstep : s.step (.remove kind key) = some s') : Held s' := by
  rw [Tracked.step] at hstep
  obtain rfl := Option.some.inj hstep
  have hremoves := removes_removes s.table key kind
  by_cases hright : ∃ x, s.table.handleTypes.get key = some (.handle kind x)
  · obtain ⟨x, hget⟩ := hright
    obtain ⟨hr, hn, hrest⟩ := hremoves.right x hget
    have hmem := hs.mem_issued.mpr hget
    have hkeys : (s.issued.filter (·.1 ≠ key)).map Prod.fst = (s.issued.map Prod.fst).erase key := by
      rw [hs.distinct.erase_eq_filter, List.filter_map]
      congr 1
      exact List.filter_congr fun a _ => by simp [bne, beq_eq_decide]
    rw [hr, Option.isSome_some, if_pos rfl]
    refine ⟨fun k e => ?_, ?_, ?_, hn.trans ?_⟩
    · rw [hrest, List.mem_filter]
      by_cases hk : k = key
      · subst hk
        rw [if_pos rfl, eq_false (nofun : none ≠ some e), false_iff]
        rintro (⟨rfl, rfl⟩ | ⟨-, hne⟩)
        · exact nomatch hget.symm.trans ((hs.holds 0 _).mpr (.inl ⟨rfl, rfl⟩))
        · exact of_decide_eq_true hne rfl
      · rw [if_neg hk, hs.holds, and_iff_left (decide_eq_true hk)]
    · rw [hkeys]
      exact hs.distinct.erase key
    · rw [hkeys]
      exact fun hzero => hs.nonzero (List.mem_of_mem_erase hzero)
    · rw [← List.length_map Prod.fst, hkeys, List.length_erase_of_mem
        (List.mem_map.mpr ⟨_, hmem, rfl⟩), List.length_map, hs.count]
  · rw [hremoves.wrong fun x hget => hright ⟨x, hget⟩]
    exact hs

/-- An insertion is right exactly if its key fits. -/
theorem insert_iff {object : O.Object kind} (hstep : s.step (.insert kind object) = some s') :
    Held s' ↔ s.table.handleTypes.nextKey < 2 ^ 32 := by
  rw [Tracked.step] at hstep
  obtain rfl := Option.some.inj hstep
  have hfree := s.table.handleTypes.get_nextKey
  have hget := s.table.handleTypes.get_insert (.handle kind object)
  rw [inserts_eq]
  constructor
  · intro hheld
    have hmem := hheld.mem_issued.mpr ((hget _).trans (if_pos rfl))
    rcases List.mem_append.mp hmem with hold | hnew
    · exact nomatch hfree.symm.trans (hs.mem_issued.mp hold)
    · have hkey := (congrArg Prod.fst (List.mem_singleton.mp hnew)).le
      exact Nat.lt_of_le_of_lt hkey (Nat.mod_lt _ (by decide))
  intro hlt
  have hfresh : s.table.handleTypes.nextKey ∉ s.issued.map Prod.fst := fun hmem => by
    obtain ⟨⟨k, e⟩, hmem, hk⟩ := List.mem_map.mp hmem
    have hlive := (hs.holds k e).mpr (.inr hmem)
    rw [show k = _ from hk, hfree] at hlive
    cases hlive
  have hkeys : (s.issued ++ [(s.table.handleTypes.nextKey, HandleType.handle kind object)]).map
      Prod.fst = s.issued.map Prod.fst ++ [s.table.handleTypes.nextKey] := List.map_append
  rw [HandleManagement.insert, Nat.mod_eq_of_lt hlt]
  refine ⟨fun k e => ?_, ?_, ?_, ?_⟩
  · rw [List.mem_append, List.mem_singleton, Prod.mk.injEq, ← or_assoc, ← hs.holds]
    refine (Eq.congr_left (hget k)).trans ?_
    split
    · next hk =>
      rw [hk, hfree, eq_comm]
      simp
    · next hk => simp [hk]
  · rw [hkeys, List.nodup_append_comm]
    exact List.nodup_cons.mpr ⟨hfresh, hs.distinct⟩
  · rw [hkeys, List.mem_append, not_or]
    refine ⟨hs.nonzero, fun hzero => ?_⟩
    rw [← List.mem_singleton.mp hzero, (hs.holds 0 _).mpr (.inl ⟨rfl, rfl⟩)] at hfree
    cases hfree
  · rw [List.length_append, ← hs.count]
    rfl

end Held

theorem held_start : Held (Tracked.start : Tracked O) where
  holds key entry := by
    rw [Tracked.start, HandleManagement.new, Slab.get_insert, Slab.get_empty]
    show (if key = 0 then _ else _) = _ ↔ _
    split
    · next hzero => simp [hzero, eq_comm]
    · next hzero => simp [hzero]
  distinct := List.nodup_nil
  nonzero := List.not_mem_nil
  count := rfl

theorem Sound.step_iff {s : Tracked O} (hs : Sound s) (c : Call O) :
    (∃ s', s.step c = some s' ∧ Sound s') ↔ s.KeyFits c := by
  obtain ⟨s', hstep⟩ : ∃ s', s.step c = some s' := by cases c <;> exact ⟨_, rfl⟩
  have hheld : (∃ s', s.step c = some s' ∧ Sound s') ↔ Held s' := by
    rw [hstep]
    exact ⟨fun ⟨_, ht, hsound⟩ => Option.some.inj ht ▸ hsound.toHeld,
      fun hheld => ⟨s', rfl, hheld.sound⟩⟩
  rw [hheld]
  cases c with
  | insert kind object => exact hs.insert_iff hstep
  | remove kind key => exact iff_true_intro (hs.remove hstep)

/-- The table is sound after every call exactly if the slab hands out no slot from 2^32 on. -/
theorem handles_sound_iff (calls : List (Call O)) :
    (∀ n, ∃ s, run Tracked.step .start (calls.take n) = some s ∧ Sound s) ↔
      Along Tracked.step Tracked.KeyFits .start calls :=
  run_invariant_iff Sound (fun _ c hs _ => hs.step_iff c) held_start.sound (along_true _ calls)

/-! ### More handles than keys -/

def plainObjects : Objects := ⟨fun _ => Unit, id⟩

theorem run_inserts {s : Tracked plainObjects} (hfull : s.table.handleTypes.vacant = []) (n : Nat) :
    ∃ s', run Tracked.step s (List.replicate n (.insert .heap ())) = some s' ∧
      s'.table.handleTypes.nextKey = s.table.handleTypes.slots.length + n := by
  induction n generalizing s with
  | zero => exact ⟨s, rfl, by rw [Slab.nextKey, hfull]; rfl⟩
  | succ n ih =>
    obtain ⟨hslots, hvacant⟩ := s.table.handleTypes.insert_of_full hfull (.handle .heap ())
    obtain ⟨s', hrun, hkey⟩ := ih (s := ⟨(s.table.insertHeapHandle ()).1, _⟩) hvacant
    refine ⟨s', hrun, hkey.trans ?_⟩
    rw [show (s.table.insertHeapHandle ()).1.handleTypes.slots = _ from hslots,
      List.length_append, Nat.add_assoc, Nat.add_comm n 1]
    rfl

/-- After 2^32 - 1 insertions the next one returns the key 0. -/
theorem insert_returns_zero : ∃ s : Tracked plainObjects,
      run Tracked.step .start (List.replicate (2 ^ 32 - 1) (.insert .heap ())) = some s ∧
      (s.table.insertHeapHandle ()).2 = 0 := by
  obtain ⟨s, hrun, hkey⟩ := run_inserts (s := .start) rfl (2 ^ 32 - 1)
  refine ⟨s, hrun, ?_⟩
  rw [show (s.table.insertHeapHandle ()).2 = s.table.handleTypes.nextKey % 2 ^ 32 from rfl, hkey]
  rfl

end Mwemu.ObjectHandle
