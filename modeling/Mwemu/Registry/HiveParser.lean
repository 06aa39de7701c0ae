import Mwemu.Lib.DepthFirst
import Mwemu.Maps.Writes

/-!
# Registry hives

The reader of hive files and the recursive pass that caches the paths of the keys. Keys are cells of
the file and the subkeys of a key are a list of offsets, taken from the file as they are. The pass
is a depth-first walk over the offsets, so it returns just when no key that it enters is found again
below itself.

Offsets are added as `u64` that wrap. `none` is a call that does not return: it panics, or it needs
more depth than it was given.
-/

namespace Mwemu.Registry

open Mwemu.Maps Mwemu.Lib.DepthFirst List

inductive HiveError where
  | io
  | invalidSignature
  | invalidBlockType
  | invalidValueType
  | nameBufferOverflow
  deriving DecidableEq, Repr

/-- Reads of a file, one after the other from a position. -/
abbrev ReadM := StateT Nat (Except HiveError)

section Reads

variable (file : List UInt8)

def seek (offset : Nat) : ReadM Unit := fun _ =>
  if offset < 2 ^ 63 then .ok ((), offset) else .error .io

def readExact (n : Nat) : ReadM (List UInt8) := fun pos =>
  if ((file.drop pos).take n).length = n then .ok ((file.drop pos).take n, pos + n)
  else .error .io

def readI32 : ReadM Int := do
  return (leValue (← readExact file 4) : Int).bmod (2 ^ 32)

def readI16 : ReadM Int := do
  return (leValue (← readExact file 2) : Int).bmod (2 ^ 16)

def readU32 : ReadM Nat := do
  return leValue (← readExact file 4)

def asU64 (x : Int) : Nat :=
  (x % 2 ^ 64).toNat

def baseOffset : Nat := 0x1000

def mainKeyOffset : Nat := baseOffset + 0x20

def absOffset (offset : Int) : Nat :=
  (baseOffset + asU64 offset) % 2 ^ 64

def readI32At (offset : Nat) : Except HiveError Int :=
  (do seek offset; readI32 file : ReadM Int).run' 0

structure Offsets where
  blockSize : Int
  blockType : List UInt8
  count : Int
  first : Int
  hash : Int

def Offsets.readFromFile (offset : Nat) : Except HiveError Offsets :=
  (do
    seek offset
    let blockSize ← readI32 file
    let blockType ← readExact file 2
    let count ← readI16 file
    let first ← readI32 file
    let hash ← readI32 file
    return { blockSize, blockType, count, first, hash } : ReadM Offsets).run' 0

structure KeyBlock where
  blockSize : Int
  blockType : List UInt8
  subkeyCount : Int
  subkeysOffset : Int
  valueCount : Int
  offsetsOffset : Int
  nameLen : Int
  name : List UInt8
  deriving DecidableEq

def KeyBlock.readFromReader (offset : Nat) : Except HiveError KeyBlock :=
  (do
    seek offset
    let blockSize ← readI32 file
    let blockType ← readExact file 2
    let _ ← readExact file 18
    let subkeyCount ← readI32 file
    let _ ← readExact file 4
    let subkeysOffset ← readI32 file
    let _ ← readExact file 4
    let valueCount ← readI32 file
    let offsetsOffset ← readI32 file
    let _ ← readExact file 28
    let nameLen ← readI16 file
    let _ ← readExact file 2
    let name ← readExact file 255
    return { blockSize, blockType, subkeyCount, subkeysOffset, valueCount, offsetsOffset, nameLen,
             name } : ReadM KeyBlock).run' 0

variable {file}

theorem seek_bind_run' {α : Type} (offset pos : Nat) (next : Unit → ReadM α) :
    (seek offset >>= next).run' pos =
      if offset < 2 ^ 63 then (next ()).run' offset else .error .io := by
  have hseek : (seek offset).run pos =
      if offset < 2 ^ 63 then .ok ((), offset) else .error .io := rfl
  rw [StateT.run'_eq, StateT.run_bind, hseek]
  split <;> rfl

theorem readI32_bind_run'_of_length_le {α : Type} {pos : Nat} (hpos : file.length ≤ pos)
    (next : Int → ReadM α) : (readI32 file >>= next).run' pos = .error .io := by
  have hexact : (readExact file 4).run pos = .error .io := by
    have hread : (readExact file 4).run pos =
        if ((file.drop pos).take 4).length = 4 then .ok ((file.drop pos).take 4, pos + 4)
        else .error .io := rfl
    rw [hread, drop_eq_nil_of_le hpos]
    rfl
  rw [StateT.run'_eq, StateT.run_bind, readI32, StateT.run_bind, hexact]
  rfl

theorem KeyBlock.lt_length_of_readFromReader {offset : Nat} {key : KeyBlock}
    (hkey : KeyBlock.readFromReader file offset = .ok key) : offset < file.length := by
  by_contra hge
  rw [KeyBlock.readFromReader, seek_bind_run',
    readI32_bind_run'_of_length_le (Nat.le_of_not_lt hge), ite_self] at hkey
  cases hkey

end Reads

/-- A call of a recursive pass: `none` if it does not return. -/
abbrev CallM := ExceptT HiveError Option

def outcome {α : Type} (call : CallM α) : Option Bool :=
  call.run.map Except.isOk

def ofRead {α : Type} (result : Except HiveError α) : CallM α :=
  some result

section Outcome

variable {α β : Type}

@[simp]
theorem ofRead_ok_bind (a : α) (f : α → CallM β) : ofRead (.ok a) >>= f = f a := rfl

theorem outcome_bind {call : CallM α} {f : α → CallM β} {next : Option Bool}
    (hnext : ∀ a, outcome (f a) = next) :
    outcome (call >>= f) = (outcome call).bind fun ok => if ok then next else some false := by
  cases call with
  | none => rfl
  | some result =>
    cases result with
    | error e => rfl
    | ok a => exact hnext a

theorem outcome_bind_congr {γ : Type} {call : CallM α} {f : α → CallM β} {g : α → CallM γ}
    (hnext : ∀ a, outcome (f a) = outcome (g a)) : outcome (call >>= f) = outcome (call >>= g) := by
  cases call with
  | none => rfl
  | some result =>
    cases result with
    | error e => rfl
    | ok a => exact hnext a

theorem outcome_bind_pure (call : CallM α) (g : α → β) :
    outcome (call >>= fun a => pure (g a)) = outcome call := by
  cases call with
  | none => rfl
  | some result => cases result <;> rfl

end Outcome

section Cache

/-! ### Subkeys -/

variable (utf8Lossy : List UInt8 → String) (file : List UInt8)

/-- The decoding of the name is left open: it is a function of the name's bytes. -/
def KeyBlock.getName (key : KeyBlock) : Except HiveError String :=
  if key.nameLen ≤ 0 ∨ key.name.length < key.nameLen.toNat then .error .nameBufferOverflow
  else .ok (utf8Lossy (key.name.take key.nameLen.toNat))

def KeyBlock.subkeyTable (key : KeyBlock) : Except HiveError Nat := do
  let offsets ← Offsets.readFromFile file (absOffset key.subkeysOffset)
  if offsets.blockType[1]? ≠ some 0x66 ∧ offsets.blockType[1]? ≠ some 0x68 then
    throw .invalidBlockType
  return absOffset key.subkeysOffset

structure Subkey where
  offset : Nat
  block : KeyBlock
  name : String

def subkeyAt (table i : Nat) : Except HiveError (Option Subkey) := do
  let subkeyOffset ← readI32At file ((table + 16 + i * 8) % 2 ^ 64)
  if subkeyOffset = 0 then return none
  let subkey ← KeyBlock.readFromReader file (absOffset subkeyOffset)
  let name ← subkey.getName utf8Lossy
  return some ⟨absOffset subkeyOffset, subkey, name⟩

/-! ### The cache of paths -/

structure HiveSubpath where
  path : String
  keyOffset : Nat

structure HiveCache where
  mainKeyOffset : Nat
  subpaths : List HiveSubpath

abbrev SubkeyCache := String → Option HiveCache

namespace SubkeyCache

def insertNew (cache : SubkeyCache) (name : String) (entry : HiveCache) : SubkeyCache :=
  fun n => if n = name then some ((cache n).getD entry) else cache n

def extend (cache : SubkeyCache) (path : String) (subpaths : List HiveSubpath) : SubkeyCache :=
  fun n => (cache n).map fun entry =>
    if n = path then { entry with subpaths := entry.subpaths ++ subpaths } else entry

end SubkeyCache

def cacheSubkey (buildCache : String → Nat → SubkeyCache → CallM SubkeyCache)
    (currentPath : String) (table : Nat) (acc : SubkeyCache × List HiveSubpath) (i : Nat) :
    CallM (SubkeyCache × List HiveSubpath) := do
  match ← ofRead (subkeyAt utf8Lossy file table i) with
  | none => return acc
  | some subkey =>
    let fullPath :=
      if currentPath = "" then subkey.name else currentPath ++ "/" ++ subkey.name
    let cache :=
      if currentPath = "" then acc.1.insertNew subkey.name ⟨subkey.offset, []⟩ else acc.1
    let subpaths := acc.2 ++ [⟨fullPath, subkey.offset⟩]
    if 0 < subkey.block.subkeyCount then
      return (← buildCache fullPath subkey.offset cache, subpaths)
    else
      return (cache, subpaths)

def buildCache : Nat → String → Nat → SubkeyCache → CallM SubkeyCache
  | 0, _, _, _ => none
  | depth + 1, currentPath, keyOffset, cache => do
      let key ← ofRead (KeyBlock.readFromReader file keyOffset)
      if key.subkeyCount = 0 then
        return cache
      else
        let table ← ofRead (key.subkeyTable file)
        let (cache, subpaths) ← (List.range key.subkeyCount.toNat).foldlM
          (cacheSubkey utf8Lossy file (buildCache depth) currentPath table) (cache, [])
        return if currentPath = "" then cache else cache.extend currentPath subpaths

def hiveSignature : List UInt8 := [0x72, 0x65, 0x67, 0x66]

def fromReader (depth : Nat) : CallM SubkeyCache := do
  let signature ← ofRead ((readExact file 4).run' 0)
  if signature = hiveSignature then
    let _ ← ofRead (KeyBlock.readFromReader file mainKeyOffset)
    buildCache utf8Lossy file depth "" mainKeyOffset fun _ => none
  else
    throw .invalidSignature

/-! ### The cache as a depth-first walk -/

def subkeyCalls (table i : Nat) : List (Call Nat) :=
  match subkeyAt utf8Lossy file table i with
  | .error _ => [.fail]
  | .ok none => []
  | .ok (some subkey) => if 0 < subkey.block.subkeyCount then [.visit subkey.offset] else []

def cachePlan (keyOffset : Nat) : List (Call Nat) :=
  match KeyBlock.readFromReader file keyOffset with
  | .error _ => [.fail]
  | .ok key =>
    if key.subkeyCount = 0 then []
    else
      match key.subkeyTable file with
      | .error _ => [.fail]
      | .ok table => (List.range key.subkeyCount.toNat).flatMap (subkeyCalls utf8Lossy file table)

variable {utf8Lossy file}

theorem outcome_cacheSubkey {recurse : String → Nat → SubkeyCache → CallM SubkeyCache}
    {result : Nat → Option Bool}
    (hrecurse : ∀ path offset cache, outcome (recurse path offset cache) = result offset)
    (path : String) (table : Nat) (acc : SubkeyCache × List HiveSubpath) (i : Nat) :
    outcome (cacheSubkey utf8Lossy file recurse path table acc i) =
      exec result (subkeyCalls utf8Lossy file table i) := by
  rw [cacheSubkey, subkeyCalls]
  cases subkeyAt utf8Lossy file table i with
  | error e => rfl
  | ok found =>
    cases found with
    | none => rfl
    | some subkey =>
      dsimp only [ofRead_ok_bind]
      split
      · rw [outcome_bind_pure, hrecurse, exec_visit]
      · rfl

theorem outcome_foldlM {α β κ : Type} {step : β → α → CallM β} {result : κ → Option Bool}
    {calls : α → List (Call κ)} (hstep : ∀ acc a, outcome (step acc a) = exec result (calls a))
    (as : List α) (acc : β) : outcome (as.foldlM step acc) = exec result (as.flatMap calls) := by
  induction as generalizing acc with
  | nil => rfl
  | cons a as ih =>
    rw [foldlM_cons, outcome_bind fun acc => ih acc, hstep, flatMap_cons, exec_append]

theorem outcome_buildCache (depth : Nat) (path : String) (keyOffset : Nat) (cache : SubkeyCache) :
    outcome (buildCache utf8Lossy file depth path keyOffset cache) =
      walk (cachePlan utf8Lossy file) depth keyOffset := by
  induction depth generalizing path keyOffset cache with
  | zero => rfl
  | succ depth ih =>
    rw [buildCache, walk, cachePlan]
    cases KeyBlock.readFromReader file keyOffset with
    | error e => rfl
    | ok key =>
      rw [ofRead_ok_bind]
      dsimp only
      split
      · rfl
      cases key.subkeyTable file with
      | error e => rfl
      | ok table =>
        rw [ofRead_ok_bind, outcome_bind_pure, outcome_foldlM (outcome_cacheSubkey ih path table)]

theorem subkeyAt_some {table i : Nat} {subkey : Subkey}
    (hsubkey : subkeyAt utf8Lossy file table i = .ok (some subkey)) :
    KeyBlock.readFromReader file subkey.offset = .ok subkey.block := by
  rw [subkeyAt] at hsubkey
  cases hentry : readI32At file ((table + 16 + i * 8) % 2 ^ 64) with
  | error e => rw [hentry] at hsubkey; cases hsubkey
  | ok offset =>
    rw [hentry] at hsubkey
    by_cases hzero : offset = 0
    · simp [hzero, bind, Except.bind, pure, Except.pure] at hsubkey
    cases hblock : KeyBlock.readFromReader file (absOffset offset) with
    | error e => simp [hzero, hblock, bind, Except.bind] at hsubkey
    | ok block =>
      cases hname : block.getName utf8Lossy with
      | error e => simp [hzero, hblock, hname, bind, Except.bind] at hsubkey
      | ok name =>
        simp [hzero, hblock, hname, bind, Except.bind, pure, Except.pure] at hsubkey
        rw [← hsubkey, hblock]

theorem mem_cachePlan {k : Nat} {call : Call Nat} (hmem : call ∈ cachePlan utf8Lossy file k) :
    call = .fail ∨ ∃ offset < file.length, call = .visit offset := by
  rw [cachePlan] at hmem
  split at hmem
  · exact .inl (mem_singleton.mp hmem)
  split at hmem
  · cases hmem
  split at hmem
  · exact .inl (mem_singleton.mp hmem)
  obtain ⟨i, -, hi⟩ := mem_flatMap.mp hmem
  rw [subkeyCalls] at hi
  split at hi
  · exact .inl (mem_singleton.mp hi)
  · cases hi
  · next subkey hsubkey =>
    split at hi
    · exact .inr ⟨subkey.offset, KeyBlock.lt_length_of_readFromReader (subkeyAt_some hsubkey),
        mem_singleton.mp hi⟩
    · cases hi

theorem finite_enters_cachePlan :
    {offset | ∃ k, Enters (cachePlan utf8Lossy file) k offset}.Finite := by
  refine (Set.finite_lt_nat file.length).subset ?_
  rintro offset ⟨k, henters⟩
  rcases mem_cachePlan henters.mem with hfail | ⟨offset', hlt, hvisit⟩
  · cases hfail
  · cases hvisit
    exact hlt

theorem not_jams_cachePlan (k : Nat) : ¬ Jams (cachePlan utf8Lossy file) k := by
  intro hjams
  rcases mem_cachePlan hjams.mem with hfail | ⟨offset, -, hvisit⟩
  · cases hfail
  · cases hvisit

theorem outcome_fromReader (depth : Nat) : outcome (fromReader utf8Lossy file depth) =
      if file.take 4 = hiveSignature ∧ (KeyBlock.readFromReader file mainKeyOffset).isOk then
        walk (cachePlan utf8Lossy file) depth mainKeyOffset else some false := by
  have hread : (readExact file 4).run' 0 =
      if (file.take 4).length = 4 then .ok (file.take 4) else .error .io := by
    have hrun : (readExact file 4).run 0 =
        if (file.take 4).length = 4 then .ok (file.take 4, 0 + 4) else .error .io := rfl
    rw [StateT.run'_eq, hrun]
    split <;> rfl
  rw [fromReader, hread]
  by_cases hsignature : file.take 4 = hiveSignature
  · have hlength : hiveSignature.length = 4 := rfl
    rw [hsignature, if_pos hlength, ofRead_ok_bind, if_pos rfl]
    cases KeyBlock.readFromReader file mainKeyOffset with
    | error e => rfl
    | ok key => exact (outcome_buildCache depth "" mainKeyOffset _).trans (if_pos ⟨rfl, rfl⟩).symm
  · have hrefused : ¬(file.take 4 = hiveSignature ∧
        (KeyBlock.readFromReader file mainKeyOffset).isOk = true) := fun h => hsignature h.1
    rw [if_neg hrefused]
    split
    · rw [ofRead_ok_bind, if_neg hsignature]
      rfl
    · rfl

theorem fromReader_returns_iff : (∃ depth, outcome (fromReader utf8Lossy file depth) ≠ none) ↔
      (file.take 4 = hiveSignature → Returns (cachePlan utf8Lossy file) mainKeyOffset) := by
  simp only [outcome_fromReader]
  by_cases hread : file.take 4 = hiveSignature ∧
      (KeyBlock.readFromReader file mainKeyOffset).isOk = true
  · simp only [if_pos hread]
    exact ⟨fun h _ => h, fun h => h hread.1⟩
  simp only [if_neg hread]
  refine ⟨fun _ hsignature => ⟨1, ?_⟩, fun _ => ⟨0, by simp⟩⟩
  -- the walk fails at once
  rw [walk, cachePlan]
  cases hkey : KeyBlock.readFromReader file mainKeyOffset with
  | error e => exact Option.some_ne_none _
  | ok key => exact absurd ⟨hsignature, by rw [hkey]; rfl⟩ hread

end Cache

end Mwemu.Registry
