import Mathlib.Algebra.Order.Ring.Nat
import Mathlib.Data.List.Nodup

/-!
# Slabs

A vector of slots with recycled keys: the keys of removed values wait on a stack and are handed out
again, last removed first. The structure carries that the stack holds exactly the vacant slots, so
an insertion never lands on a value.
-/

namespace Mwemu.Lib

structure Slab (α : Type) where
  slots : List (Option α)
  vacant : List Nat
  mem_vacant : ∀ key, key ∈ vacant ↔ slots[key]? = some none
  nodup : vacant.Nodup

namespace Slab

variable {α : Type} (s : Slab α)

def empty : Slab α where
  slots := []
  vacant := []
  mem_vacant := by simp
  nodup := List.nodup_nil

def get (key : Nat) : Option α :=
  s.slots[key]?.join

def nextKey : Nat :=
  s.vacant.headD s.slots.length

variable {key : Nat} {value : α}

theorem vacant_lt (hkey : key ∈ s.vacant) : key < s.slots.length := by
  have hslot := (s.mem_vacant key).mp hkey
  exact (List.getElem?_eq_some_iff.mp hslot).1

def insert (value : α) : Slab α :=
  match hvacant : s.vacant with
  | [] =>
    { slots := s.slots ++ [some value]
      vacant := []
      mem_vacant := by
        intro key
        have hslot : s.slots[key]? ≠ some none := fun hslot => by
          simpa [hvacant] using (s.mem_vacant key).mpr hslot
        rw [List.getElem?_append]
        split
        · simpa using hslot
        · cases hsub : key - s.slots.length <;> simp
      nodup := List.nodup_nil }
  | key :: rest =>
    { slots := s.slots.set key (some value)
      vacant := rest
      mem_vacant := by
        intro k
        have hnodup := s.nodup
        have hmem := s.mem_vacant k
        rw [hvacant] at hnodup hmem
        have hlt : key < s.slots.length := s.vacant_lt (hvacant ▸ List.mem_cons_self)
        rw [List.getElem?_set]
        by_cases hk : key = k
        · subst hk
          simp [hlt, (List.nodup_cons.mp hnodup).1]
        · rw [if_neg hk, ← hmem]
          simp [Ne.symm hk]
      nodup := (List.nodup_cons.mp (hvacant ▸ s.nodup)).2 }

/-- The slab with the value at `key` replaced, unchanged if the slot is vacant. -/
def set (key : Nat) (value : α) : Slab α where
  slots := if (s.get key).isSome then s.slots.set key (some value) else s.slots
  vacant := s.vacant
  mem_vacant := by
    intro k
    rw [s.mem_vacant]
    split
    · next hlive =>
      rw [List.getElem?_set]
      by_cases hk : key = k
      · subst hk
        have hslot : s.slots[key]? ≠ some none := by
          intro hslot
          simp [get, hslot] at hlive
        simp [hslot]
      · rw [if_neg hk]
    · rfl
  nodup := s.nodup

def remove (key : Nat) : Slab α where
  slots := if (s.get key).isSome then s.slots.set key none else s.slots
  vacant := if (s.get key).isSome then key :: s.vacant else s.vacant
  mem_vacant := by
    intro k
    split
    · next hlive =>
      have hlt : key < s.slots.length := by
        by_contra hge
        simp [get, List.getElem?_eq_none (Nat.le_of_not_lt hge)] at hlive
      rw [List.mem_cons, s.mem_vacant, List.getElem?_set]
      by_cases hk : key = k
      · subst hk
        simp [hlt]
      · rw [if_neg hk]
        simp [Ne.symm hk]
    · exact s.mem_vacant k
  nodup := by
    split
    · next hlive =>
      refine List.nodup_cons.mpr ⟨fun hmem => ?_, s.nodup⟩
      simp [get, (s.mem_vacant key).mp hmem] at hlive
    · exact s.nodup

def entries : List (Nat × α) :=
  s.slots.zipIdx.filterMap fun slot => slot.1.map fun value => (slot.2, value)

@[simp] theorem get_empty (key : Nat) : (empty : Slab α).get key = none := by
  simp [get, empty]

theorem get_nextKey : s.get s.nextKey = none := by
  rw [get, nextKey]
  cases hvacant : s.vacant with
  | nil => simp
  | cons key rest =>
    have hslot := (s.mem_vacant key).mp (hvacant ▸ List.mem_cons_self)
    simp [hslot]

theorem get_insert (value : α) (key : Nat) :
    (s.insert value).get key = if key = s.nextKey then some value else s.get key := by
  rw [insert, nextKey]
  split
  · next hvacant =>
    simp only [get, hvacant, List.headD_nil, List.getElem?_append]
    by_cases hlt : key < s.slots.length
    · simp [hlt, Nat.ne_of_lt hlt]
    by_cases heq : key = s.slots.length
    · simp [heq]
    · have hsub : key - s.slots.length = (key - s.slots.length - 1) + 1 := by omega
      rw [if_neg hlt, if_neg heq, hsub]
      simp [List.getElem?_eq_none (Nat.le_of_not_lt hlt)]
  · next k rest hvacant =>
    have hlt : k < s.slots.length := s.vacant_lt (hvacant ▸ List.mem_cons_self)
    simp only [get, hvacant, List.headD_cons, List.getElem?_set]
    by_cases heq : k = key
    · subst heq
      simp [hlt]
    · rw [if_neg heq, if_neg (Ne.symm heq)]

theorem slots_set (hlive : (s.get key).isSome) (value : α) :
    (s.set key value).slots = s.slots.set key (some value) :=
  if_pos hlive

theorem get_set (hlive : (s.get key).isSome) (value : α) (k : Nat) :
    (s.set key value).get k = if k = key then some value else s.get k := by
  have hlt : key < s.slots.length := by
    by_contra hge
    simp [get, List.getElem?_eq_none (Nat.le_of_not_lt hge)] at hlive
  rw [get, slots_set s hlive, List.getElem?_set]
  by_cases heq : key = k
  · subst heq
    simp [hlt]
  · rw [if_neg heq, if_neg (Ne.symm heq), get]

theorem set_set (hlive : (s.get key).isSome) (a b : α) : (s.set key a).set key b = s.set key b := by
  have hlive' : ((s.set key a).get key).isSome := by
    rw [get_set s hlive, if_pos rfl, Option.isSome_some]
  have hslots : ((s.set key a).set key b).slots = (s.set key b).slots := by
    rw [slots_set _ hlive', slots_set s hlive, slots_set s hlive, List.set_set]
  exact (mk.injEq ..).mpr ⟨hslots, rfl⟩

theorem set_get (hget : s.get key = some value) : s.set key value = s := by
  have hlive : (s.get key).isSome := by rw [hget, Option.isSome_some]
  have hslots : (s.set key value).slots = s.slots := by
    rw [slots_set s hlive]
    refine List.ext_getElem? fun k => ?_
    rw [List.getElem?_set]
    split
    · next heq =>
      subst heq
      rw [get, Option.join_eq_some_iff] at hget
      rw [hget, if_pos (List.getElem?_eq_some_iff.mp hget).1]
    · rfl
  exact (mk.injEq ..).mpr ⟨hslots, rfl⟩

theorem get_remove (key k : Nat) : (s.remove key).get k = if k = key then none else s.get k := by
  rw [get, remove]
  by_cases hlive : (s.get key).isSome
  · simp only [if_pos hlive, List.getElem?_set]
    by_cases heq : key = k
    · subst heq
      by_cases hlt : key < s.slots.length <;> simp [hlt]
    · rw [if_neg heq, if_neg (Ne.symm heq), get]
  · simp only [if_neg hlive]
    by_cases heq : k = key
    · subst heq
      rw [if_pos rfl, ← get]
      simpa using hlive
    · rw [if_neg heq, get]

theorem mem_entries : (key, value) ∈ s.entries ↔ s.get key = some value := by
  rw [entries, List.mem_filterMap]
  constructor
  · rintro ⟨⟨slot, k⟩, hmem, heq⟩
    rw [List.mem_zipIdx_iff_getElem?] at hmem
    cases slot with
    | none => simp at heq
    | some a =>
      obtain ⟨rfl, rfl⟩ : k = key ∧ a = value := by simpa using heq
      simp only at hmem
      simp [get, hmem]
  · intro hget
    refine ⟨(some value, key), ?_, rfl⟩
    rw [List.mem_zipIdx_iff_getElem?, get] at *
    cases hslot : s.slots[key]? with
    | none => simp [hslot] at hget
    | some slot => simpa [hslot] using hget

theorem insert_of_full (hvacant : s.vacant = []) (value : α) :
    (s.insert value).slots = s.slots ++ [some value] ∧ (s.insert value).vacant = [] := by
  rw [insert]
  split
  · exact ⟨rfl, rfl⟩
  · next hcons => exact nomatch hvacant.symm.trans hcons

theorem insert_of_vacant {rest : List Nat} (hvacant : s.vacant = key :: rest) (value : α) :
    (s.insert value).slots = s.slots.set key (some value) ∧ (s.insert value).vacant = rest := by
  rw [insert]
  split
  · next hnil => exact nomatch hvacant.symm.trans hnil
  · next hcons =>
    obtain ⟨rfl, rfl⟩ := List.cons.inj (hvacant.symm.trans hcons)
    exact ⟨rfl, rfl⟩

theorem insert_remove (hget : s.get key = some value) :
    (s.remove key).insert value = s := by
  have hlive : (s.get key).isSome := by rw [hget, Option.isSome_some]
  obtain ⟨hslots, hvacant⟩ := (s.remove key).insert_of_vacant (if_pos hlive) value
  rw [show (s.remove key).slots = s.slots.set key none from if_pos hlive, List.set_set,
    ← s.slots_set hlive, s.set_get hget] at hslots
  exact (mk.injEq ..).mpr ⟨hslots, hvacant⟩

end Slab

end Mwemu.Lib
