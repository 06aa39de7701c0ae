import Mathlib.Data.List.Sublists

/-!
# The search for an exception handler

A handler that does not take the exception leaves through `exit`, which raises the exception again,
and that starts with the first vectored handler once more. The handlers of the x86 chain are the
exception: the dispatcher walks over their registrations, counts them and stops after 64.

That the stack has room for the dispatcher's records is taken for granted.
-/

namespace Mwemu.Emu

inductive Handler where
  | veh (addr : Nat)
  | pdata (addr : Nat)
  /-- the handler of a registration, with the number of registrations up to it -/
  | seh (addr registration visited : Nat)
  | uef (addr : Nat)

def maxHandlers : Nat := 64

def endOfChain : Nat := 0xFFFFFFFF

/-- What the search reads of the thread, the memory and the fault. -/
structure Fault where
  isX64 : Bool
  vehList : List Nat
  seh : Nat
  uef : Nat
  /-- the handler that `find_x64_seh_handler` finds -/
  pdata : Option Nat
  readDword : Nat → Option Nat
  isMapped : Nat → Bool

namespace Fault

variable (t : Fault)

def veh : Nat := t.vehList.head?.getD 0

def filter : Option Handler := if 0 < t.uef then some (.uef t.uef) else none

/-- The handler of the first registration of the x86 chain. -/
def firstSeh : Option Handler :=
  (t.readDword (t.seh + 4)).bind fun addr =>
    if (t.readDword t.seh).isNone || !t.isMapped addr then none else some (.seh addr t.seh 1)

/-- `continue_search` of the dispatcher for the x86 chain. -/
def continueSearch (registration visited : Nat) : Option Handler :=
  (t.readDword registration).bind fun next =>
    if next = 0 ∨ next = endOfChain then
      if t.uef ≠ 0 ∧ t.isMapped t.uef then some (.uef t.uef) else none
    else if maxHandlers ≤ visited then none
    else (t.readDword (next + 4)).bind fun addr =>
      if t.isMapped addr then some (.seh addr next (visited + 1)) else none

/-- The handler that is entered, unless the emulation stops. -/
def exception : Option Handler :=
  if t.seh = 0 ∧ t.veh = 0 ∧ t.uef = 0 ∧ t.isX64 = false then none
  else if 0 < t.veh then some (.veh t.veh)
  else if t.isX64 then t.pdata.elim t.filter fun addr => some (.pdata addr)
  else if 0 < t.seh then t.firstSeh
  else t.filter

/-- What follows a handler that returns `EXCEPTION_CONTINUE_SEARCH`. -/
def exit : Handler → Option Handler
  | .veh _ | .pdata _ => if 0 < t.seh ∨ 0 < t.uef then t.exception else none
  | .seh _ registration visited => t.continueSearch registration visited
  | .uef _ => none

/-- The handlers that are entered, or none if the search goes on after `fuel` of them. -/
def search : Nat → Option Handler → Option (List Handler)
  | _, none => some []
  | 0, some _ => none
  | fuel + 1, some h => (search fuel (t.exit h)).map (h :: ·)

/-- Handlers of registrations that follow each other, from the `visited`-th one on. -/
def chain : Nat → List (Nat × Nat) → List Handler
  | _, [] => []
  | visited, (addr, registration) :: rest =>
    .seh addr registration visited :: chain (visited + 1) rest

/-- The handler of the table on x64, or a walk over the chain on x86, and then the filter. -/
def LaterStages (stages : List Handler) : Prop :=
  ∃ found last, stages = found ++ last ∧ last.Sublist [.uef t.uef] ∧
    if t.isX64 then found.Sublist (t.pdata.toList.map .pdata)
    else ∃ regs, regs.length ≤ maxHandlers ∧ found = chain 1 regs

/-- The vectored handlers are entered in order, then each later stage at most once. -/
def InOrder : Prop :=
  ∃ fuel stages, t.LaterStages stages ∧
    t.search fuel t.exception = some (t.vehList.map .veh ++ stages)

variable {t}

theorem search_cycle {h : Handler} (hexit : t.exit h = some h) (fuel : Nat) :
    t.search fuel (some h) = none := by
  induction fuel with
  | zero => rfl
  | succ fuel ih => rw [search, hexit, ih, Option.map_none]

theorem search_eq_cons {fuel : Nat} {next : Option Handler} {h : Handler} {l : List Handler}
    (hsearch : t.search fuel next = some (h :: l)) :
    next = some h ∧ ∃ fuel, t.search fuel (t.exit h) = some l := by
  cases next with
  | none => simp [search] at hsearch
  | some h' =>
    cases fuel with
    | zero => cases hsearch
    | succ fuel =>
      obtain ⟨l', hl', heq⟩ := Option.map_eq_some_iff.mp hsearch
      cases heq
      exact ⟨rfl, fuel, hl'⟩

theorem exception_of_veh_zero (hveh : t.veh = 0) : t.exception =
    if t.isX64 then t.pdata.elim t.filter fun addr => some (.pdata addr)
    else if 0 < t.seh then t.firstSeh
    else t.filter := by
  rw [exception, hveh, if_neg (lt_irrefl 0)]
  refine ite_eq_right_iff.mpr fun hnone => ?_
  simp [hnone, filter]

theorem exception_ne_veh (hveh : t.veh = 0) (addr : Nat) : t.exception ≠ some (.veh addr) := by
  rw [exception_of_veh_zero hveh, filter, firstSeh]
  cases t.pdata <;> cases t.readDword (t.seh + 4) <;> simp <;> split_ifs <;> simp

theorem search_filter (fuel : Nat) : t.search (fuel + 1) t.filter = some t.filter.toList := by
  rw [filter]
  split_ifs <;> simp [search, exit]

theorem filter_sublist : t.filter.toList.Sublist [.uef t.uef] := by
  rw [filter]
  split_ifs <;> simp

theorem continueSearch_cases (registration visited : Nat) :
    t.continueSearch registration visited = none ∨
      t.continueSearch registration visited = some (.uef t.uef) ∨
      visited < maxHandlers ∧ ∃ addr next,
        t.continueSearch registration visited = some (.seh addr next (visited + 1)) := by
  rw [continueSearch]
  cases t.readDword registration with
  | none => exact .inl rfl
  | some next =>
    rw [Option.bind_some]
    split_ifs with hend hfilter hlimit
    · exact .inr (.inl rfl)
    · exact .inl rfl
    · exact .inl rfl
    · cases t.readDword (next + 4) with
      | none => exact .inl rfl
      | some addr =>
        rw [Option.bind_some]
        split_ifs
        · exact .inr (.inr ⟨Nat.lt_of_not_le hlimit, addr, next, rfl⟩)
        · exact .inl rfl

/-- The walk over the chain ends: a pass leaves the chain or raises the number of registrations. -/
theorem search_seh (k : Nat) {visited : Nat} (hk : visited + k = maxHandlers)
    (addr registration : Nat) :
    ∃ regs last, regs.length ≤ k ∧ last.Sublist [.uef t.uef] ∧
      t.search (k + 2) (some (.seh addr registration visited)) =
        some (.seh addr registration visited :: (chain (visited + 1) regs ++ last)) := by
  induction k generalizing visited addr registration with
  | zero =>
    rw [search, exit]
    rcases continueSearch_cases (t := t) registration visited with hnext | hnext | ⟨hlt, -⟩
    · exact ⟨[], [], by simp, by simp, by rw [hnext]; rfl⟩
    · exact ⟨[], [.uef t.uef], by simp, by simp, by rw [hnext]; rfl⟩
    · omega
  | succ k ih =>
    rw [search, exit]
    rcases continueSearch_cases (t := t) registration visited with
      hnext | hnext | ⟨-, addr', next, hnext⟩
    · exact ⟨[], [], by simp, by simp, by rw [hnext]; rfl⟩
    · exact ⟨[], [.uef t.uef], by simp, by simp, by rw [hnext]; rfl⟩
    · have hk' : visited + 1 + k = maxHandlers := by omega
      obtain ⟨regs, last, hlen, hlast, hsearch⟩ := ih hk' addr' next
      refine ⟨(addr', next) :: regs, last, by simpa using hlen, hlast, ?_⟩
      rw [hnext, hsearch]
      rfl

theorem search_firstSeh : ∃ fuel regs last, regs.length ≤ maxHandlers ∧ last.Sublist [.uef t.uef] ∧
    t.search fuel t.firstSeh = some (chain 1 regs ++ last) := by
  rw [firstSeh]
  cases t.readDword (t.seh + 4) with
  | none => exact ⟨0, [], [], by simp, by simp, rfl⟩
  | some addr =>
    rw [Option.bind_some]
    split_ifs
    · exact ⟨0, [], [], by simp, by simp, rfl⟩
    · have hlimit : 1 + 63 = maxHandlers := rfl
      obtain ⟨regs, last, hlen, hlast, hsearch⟩ := search_seh (t := t) 63 hlimit addr t.seh
      refine ⟨65, (addr, t.seh) :: regs, last, ?_, hlast, hsearch⟩
      exact Nat.succ_le_succ hlen

/-- Two vectored handlers and a filter, in empty memory. -/
def twoHandlers : Fault :=
  ⟨true, [0x1000, 0x2000], 0, 0x3000, none, fun _ => none, fun _ => false⟩

end Fault

end Mwemu.Emu
