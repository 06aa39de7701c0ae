import Mwemu.Api.Forwarders

/-!
# Moving a module

A module that is moved shifts the addresses of its exports and enters them again under the names as
they were spelled. The index is then the one that is built at the new base.
-/

namespace Mwemu.Api

open Mwemu.Lib

inductive ExportTarget where
  | direct (rva : Nat)
  | forwarder (value : Text)

structure NamedExport where
  name : Text
  ordinalIndex : Nat

structure ExportIndexData where
  exportBase : Nat
  ordinalTargets : List (Option ExportTarget)
  namedExports : List NamedExport

/-- An index with the names by address, and the slots and names in the order of the table. -/
structure NamedExportIndex extends ModuleExportIndex where
  byAddress : Nat → Option Text
  displayNames : List (Nat × Text)

def wrappingAdd (a b : Nat) : Nat := (a + b) % 2 ^ 64

def wrappingSub (a b : Nat) : Nat := (a + (2 ^ 64 - b % 2 ^ 64)) % 2 ^ 64

def ExportTarget.at (base : Nat) : ExportTarget → IndexedExport
  | direct rva => .direct (wrappingAdd base rva)
  | forwarder value => .forwarder value

def IndexedExport.shift (delta : Nat) : IndexedExport → IndexedExport
  | direct address => .direct (wrappingAdd address delta)
  | forwarder value => .forwarder value

/-- The first name of an address stays. -/
def enterAddress (byOrdinal : List (Option IndexedExport)) (byAddress : Nat → Option Text)
    (entry : Nat × Text) : Nat → Option Text :=
  match (byOrdinal[entry.1]?).join with
  | some (.direct address) =>
    Function.update byAddress address ((byAddress address).or (some entry.2))
  | _ => byAddress

namespace NamedExportIndex

def fromParsed (normalizedName : Text) (base : Nat) (parsed : ExportIndexData) :
    NamedExportIndex :=
  let displayNames := parsed.namedExports.map fun e => (e.ordinalIndex, e.name)
  let byOrdinal := parsed.ordinalTargets.map (Option.map (ExportTarget.at base))
  { normalizedName := normalizedName
    base := base
    exportBase := parsed.exportBase
    byName := parsed.namedExports.foldl (fun byName e =>
      Function.update byName e.name.toAsciiLowercase (some e.ordinalIndex)) fun _ => none
    byOrdinal := byOrdinal
    byAddress := displayNames.foldl (enterAddress byOrdinal) fun _ => none
    displayNames := displayNames }

def rebase (m : NamedExportIndex) (newBase : Nat) : NamedExportIndex :=
  if m.base = newBase then m
  else
    let delta := wrappingSub newBase m.base
    let byOrdinal := m.byOrdinal.map (Option.map (IndexedExport.shift delta))
    { m with
      base := newBase
      byOrdinal := byOrdinal
      byAddress := m.displayNames.foldl (enterAddress byOrdinal) fun _ => none }

def resolveAddress (m : NamedExportIndex) (addr : Nat) : Option Text := m.byAddress addr

end NamedExportIndex

theorem wrappingAdd_wrappingSub (base newBase rva : Nat) :
    wrappingAdd (wrappingAdd base rva) (wrappingSub newBase base) = wrappingAdd newBase rva := by
  have hlt := Nat.mod_lt base (y := 2 ^ 64) (by decide)
  rw [wrappingAdd, wrappingAdd, wrappingSub, wrappingAdd, Nat.mod_add_mod, Nat.add_mod_mod]
  omega

theorem shift_at (base newBase : Nat) :
    IndexedExport.shift (wrappingSub newBase base) ∘ ExportTarget.at base =
      ExportTarget.at newBase := by
  funext target
  cases target with
  | direct rva => exact congrArg IndexedExport.direct (wrappingAdd_wrappingSub base newBase rva)
  | forwarder value => rfl

theorem rebase_fromParsed (normalizedName : Text) (base newBase : Nat) (parsed : ExportIndexData) :
    (NamedExportIndex.fromParsed normalizedName base parsed).rebase newBase =
      .fromParsed normalizedName newBase parsed := by
  rw [NamedExportIndex.rebase]
  split
  · next hbase => exact congrArg (NamedExportIndex.fromParsed normalizedName · parsed) hbase
  have hslots : (parsed.ordinalTargets.map (Option.map (ExportTarget.at base))).map
      (Option.map (IndexedExport.shift (wrappingSub newBase base))) =
      parsed.ordinalTargets.map (Option.map (ExportTarget.at newBase)) := by
    rw [List.map_map, Option.map_comp_map, shift_at]
  simp only [NamedExportIndex.fromParsed, hslots]

/-- However often a module was moved, its exports are found as if it had been loaded where it is:
by name, by ordinal and by address. -/
theorem rebase_history_independent (normalizedName : Text) (base : Nat) (parsed : ExportIndexData)
    (bases : List Nat) :
    let moved := bases.foldl NamedExportIndex.rebase (.fromParsed normalizedName base parsed)
    let built := NamedExportIndex.fromParsed normalizedName (bases.getLastD base) parsed
    (∀ name, moved.resolveName name = built.resolveName name) ∧
      (∀ ordinal, moved.resolveOrdinal ordinal = built.resolveOrdinal ordinal) ∧
      ∀ addr, moved.resolveAddress addr = built.resolveAddress addr := by
  have hbuilt : bases.foldl NamedExportIndex.rebase (.fromParsed normalizedName base parsed) =
      .fromParsed normalizedName (bases.getLastD base) parsed := by
    induction bases generalizing base with
    | nil => rfl
    | cons newBase bases ih => rw [List.foldl_cons, rebase_fromParsed, ih, List.getLastD_cons]
  rw [hbuilt]
  exact ⟨fun _ => rfl, fun _ => rfl, fun _ => rfl⟩

end Mwemu.Api
