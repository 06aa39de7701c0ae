import Mwemu.Registry.HiveParser

/-!
# The registry tree of a hive

The second pass over a hive builds the tree of its keys with their values. It goes from a key to the
subkeys that have the names in its list, and is a depth-first walk over the key blocks. Loading a hive
returns just when neither pass comes to a key again below itself, and no key that the second pass
comes to has a negative count: a vector of that capacity is a panic.
-/

namespace Mwemu.Registry

open Mwemu.Lib.DepthFirst

/-! ### Values -/

inductive RegType where
  | none
  | sz
  | expandSz
  | binary
  | dWord
  | dWordBigEndian
  | link
  | multiSz
  | resourceList
  | fullResourceDescriptor
  | resourceRequirementsList
  | qWord
  deriving DecidableEq, Repr

def RegType.tryFrom : Nat → Except HiveError RegType
  | 0 => .ok none
  | 1 => .ok sz
  | 2 => .ok expandSz
  | 3 => .ok binary
  | 4 => .ok dWord
  | 5 => .ok dWordBigEndian
  | 6 => .ok link
  | 7 => .ok multiSz
  | 8 => .ok resourceList
  | 9 => .ok fullResourceDescriptor
  | 10 => .ok resourceRequirementsList
  | 11 => .ok qWord
  | _ => .error .invalidValueType

inductive RegistryValue where
  | string (text : String)
  | dword (value : Nat)
  | binary (bytes : List UInt8)
  | multiString (strings : List String)

structure ValueBlock where
  blockSize : Int
  blockType : List UInt8
  nameLen : Int
  size : Int
  dataOffset : Int
  valueType : RegType
  name : List UInt8

/-- The strings that zero bytes end; each byte is a character and empty strings are dropped. -/
def multiStrings (buffer : List UInt8) : List String :=
  let (strings, current) := buffer.foldl (fun (strings, current) byte =>
    if byte = 0 then (if current = "" then strings else strings ++ [current], "")
    else (strings, current.push (Char.ofNat byte.toNat))) ([], "")
  if current = "" then strings else strings ++ [current]

section Values

variable (utf8Lossy : List UInt8 → String) (file : List UInt8)

def ValueBlock.readFromReader (offset : Nat) : Except HiveError ValueBlock :=
  (do
    seek offset
    let blockSize ← readI32 file
    let blockType ← readExact file 2
    let nameLen ← readI16 file
    let size ← readI32 file
    let dataOffset ← readI32 file
    let valueType ← RegType.tryFrom (← readU32 file)
    let _ ← readExact file 4
    let name ← readExact file 255
    return { blockSize, blockType, nameLen, size, dataOffset, valueType, name } :
      ReadM ValueBlock).run' 0

def ValueBlock.getName (value : ValueBlock) : Except HiveError String :=
  if value.nameLen ≤ 0 ∨ value.name.length < value.nameLen.toNat then .error .nameBufferOverflow
  else .ok (utf8Lossy (value.name.take value.nameLen.toNat))

/-- The data are in the block itself when the highest bit of the size is set. -/
def readValueData (value : ValueBlock) : Except HiveError RegistryValue :=
  let dataSize := (value.size % 2 ^ 16).toNat
  if value.size < 0 then
    let inlineData := (leBytes 4 (value.dataOffset % 2 ^ 32).toNat).take dataSize
    .ok (.binary (inlineData ++ List.replicate (dataSize - inlineData.length) 0))
  else
    (do
      seek ((absOffset value.dataOffset + 4) % 2 ^ 64)
      match value.valueType with
      | .sz | .expandSz => return .string (utf8Lossy (← readExact file dataSize))
      | .binary => return .binary (← readExact file dataSize)
      | .dWord => return .dword (← readU32 file)
      | .multiSz => return .multiString (multiStrings (← readExact file dataSize))
      | _ => throw .invalidValueType : ReadM RegistryValue).run' 0

def KeyBlock.valueAt (key : KeyBlock) (i : Nat) : Except HiveError (Option (ValueBlock × String)) := do
  let table := (absOffset key.offsetsOffset + 4) % 2 ^ 64
  let valueOffset ← readI32At file ((table + i * 4) % 2 ^ 64)
  if valueOffset = 0 then return none
  let value ← ValueBlock.readFromReader file (absOffset valueOffset)
  let name ← value.getName utf8Lossy
  return some (value, name)

/-- A vector with room for a number of strings; a negative number is too large a capacity. -/
def withCapacity (count : Int) : CallM Unit :=
  if count < 0 then none else pure ()

def KeyBlock.keysList (key : KeyBlock) : CallM (List String) := do
  if key.valueCount = 0 then
    return []
  else
    withCapacity key.valueCount
    let found ← ofRead ((List.range key.valueCount.toNat).mapM (key.valueAt utf8Lossy file))
    return found.filterMap fun entry => entry.map Prod.snd

def KeyBlock.findValue (key : KeyBlock) (name : String) :
    List Nat → Except HiveError (Option RegistryValue)
  | [] => .ok none
  | i :: entries => do
      match ← key.valueAt utf8Lossy file i with
      | none => findValue key name entries
      | some (value, valueName) =>
        if valueName = name then
          return some (← readValueData utf8Lossy file value)
        else
          findValue key name entries

def KeyBlock.getKeyValueWrap (key : KeyBlock) (name : String) :
    Except HiveError (Option RegistryValue) :=
  key.findValue utf8Lossy file name (List.range key.valueCount.toNat)

def insertPair {β : Type} (pairs : List (String × β)) (name : String) (value : β) :
    List (String × β) :=
  (name, value) :: pairs.filter fun pair => pair.1 ≠ name

def KeyBlock.loadKeyValues (key : KeyBlock) : CallM (List (String × RegistryValue)) := do
  let names ← key.keysList utf8Lossy file
  names.foldlM (fun values name => do
    match ← ofRead (key.getKeyValueWrap utf8Lossy file name) with
    | none => return values
    | some value => return insertPair values name value) []

/-! ### Subkeys -/

def KeyBlock.subkeysList (key : KeyBlock) : CallM (List String) := do
  let table ← ofRead (key.subkeyTable file)
  withCapacity key.subkeyCount
  let found ← ofRead ((List.range key.subkeyCount.toNat).mapM (subkeyAt utf8Lossy file table))
  return found.filterMap fun entry => entry.map Subkey.name

def findSubkey (table : Nat) (name : String) : List Nat → Except HiveError (Option KeyBlock)
  | [] => .ok none
  | i :: entries => do
      match ← subkeyAt utf8Lossy file table i with
      | none => findSubkey table name entries
      | some subkey =>
        if subkey.name = name then return some subkey.block else findSubkey table name entries

def KeyBlock.getSubkeyByName (key : KeyBlock) (name : String) :
    Except HiveError (Option KeyBlock) := do
  let _ ← Offsets.readFromFile file (absOffset key.subkeysOffset)
  findSubkey utf8Lossy file (absOffset key.subkeysOffset) name (List.range key.subkeyCount.toNat)

structure RegisterManager where
  name : String
  registryHandle : List (String × RegistryValue)
  subkeys : List (String × RegisterManager)

def loadSubkey (build : KeyBlock → CallM RegisterManager) (key : KeyBlock)
    (subkeys : List (String × RegisterManager)) (name : String) :
    CallM (List (String × RegisterManager)) := do
  match ← ofRead (key.getSubkeyByName utf8Lossy file name) with
  | none => return subkeys
  | some subkey => return insertPair subkeys name (← build subkey)

def buildRegisterManager : Nat → KeyBlock → CallM RegisterManager
  | 0, _ => none
  | depth + 1, key => do
      let name ← ofRead (key.getName utf8Lossy)
      let values ← key.loadKeyValues utf8Lossy file
      let names ← key.subkeysList utf8Lossy file
      let subkeys ← names.foldlM (loadSubkey utf8Lossy file (buildRegisterManager depth) key) []
      return { name, registryHandle := values, subkeys }

/-- The tree from the root key; the cache of the first pass is not used by it. -/
def buildRootManager (depth : Nat) : CallM RegisterManager := do
  let root ← ofRead (KeyBlock.readFromReader file mainKeyOffset)
  buildRegisterManager utf8Lossy file depth root

/-! ### The tree as a depth-first walk -/

def KeyBlock.prepare (key : KeyBlock) : CallM (List String) := do
  let _ ← ofRead (key.getName utf8Lossy)
  let _ ← key.loadKeyValues utf8Lossy file
  key.subkeysList utf8Lossy file

def namedCalls (key : KeyBlock) (name : String) : List (Call KeyBlock) :=
  match key.getSubkeyByName utf8Lossy file name with
  | .error _ => [.fail]
  | .ok none => []
  | .ok (some subkey) => [.visit subkey]

def registerPlan (key : KeyBlock) : List (Call KeyBlock) :=
  match (key.prepare utf8Lossy file).run with
  | none => [.stuck]
  | some (.error _) => [.fail]
  | some (.ok names) => names.flatMap (namedCalls utf8Lossy file key)

variable {utf8Lossy file}

theorem outcome_loadSubkey {build : KeyBlock → CallM RegisterManager}
    {result : KeyBlock → Option Bool} (hbuild : ∀ key, outcome (build key) = result key)
    (key : KeyBlock) (subkeys : List (String × RegisterManager)) (name : String) :
    outcome (loadSubkey utf8Lossy file build key subkeys name) =
      exec result (namedCalls utf8Lossy file key name) := by
  rw [loadSubkey, namedCalls]
  cases key.getSubkeyByName utf8Lossy file name with
  | error e => rfl
  | ok found =>
    cases found with
    | none => rfl
    | some subkey =>
      dsimp only [ofRead_ok_bind]
      rw [outcome_bind_pure, hbuild, exec_visit]

theorem outcome_buildRegisterManager (depth : Nat) (key : KeyBlock) :
    outcome (buildRegisterManager utf8Lossy file depth key) =
      walk (registerPlan utf8Lossy file) depth key := by
  induction depth generalizing key with
  | zero => rfl
  | succ depth ih =>
    have hprepare : outcome (buildRegisterManager utf8Lossy file (depth + 1) key) =
        outcome (key.prepare utf8Lossy file >>= fun names =>
          names.foldlM (loadSubkey utf8Lossy file (buildRegisterManager utf8Lossy file depth) key)
            []) := by
      rw [buildRegisterManager, KeyBlock.prepare, bind_assoc]
      refine outcome_bind_congr fun name => ?_
      rw [bind_assoc]
      exact outcome_bind_congr fun values => outcome_bind_congr fun names =>
        outcome_bind_pure _ _
    rw [hprepare, walk, registerPlan]
    cases hrun : key.prepare utf8Lossy file with
    | none => rfl
    | some result =>
      cases result with
      | error e => rfl
      | ok names => exact outcome_foldlM (outcome_loadSubkey ih key) names []

/-! ### Panics -/

/-- A vector with room for the values or for the names of the subkeys is asked for with a negative
count; for the subkeys only after the values have been read and the list has been found. -/
def KeyBlock.NegativeCount (utf8Lossy : List UInt8 → String) (file : List UInt8)
    (key : KeyBlock) : Prop :=
  (∃ name, key.getName utf8Lossy = .ok name) ∧
    (key.valueCount < 0 ∨ (∃ values, key.loadKeyValues utf8Lossy file = some (.ok values)) ∧
      (∃ table, key.subkeyTable file = .ok table) ∧ key.subkeyCount < 0)

theorem foldlM_ne_none {α β : Type} {f : β → α → CallM β} (hf : ∀ b a, f b a ≠ none) (l : List α)
    (b : β) : l.foldlM f b ≠ none := by
  induction l generalizing b with
  | nil => exact nofun
  | cons a l ih =>
    rw [List.foldlM_cons]
    cases hstep : f b a with
    | none => exact absurd hstep (hf b a)
    | some result =>
      cases result with
      | error e => exact nofun
      | ok b' => exact ih b'

theorem keysList_eq_none {key : KeyBlock} :
    key.keysList utf8Lossy file = none ↔ key.valueCount < 0 := by
  rw [KeyBlock.keysList, withCapacity]
  split_ifs with hzero hneg
  · exact ⟨nofun, fun hneg => by omega⟩
  · exact ⟨fun _ => hneg, fun _ => rfl⟩
  · refine ⟨fun hnone => ?_, fun h => absurd h hneg⟩
    cases hread : (List.range key.valueCount.toNat).mapM (key.valueAt utf8Lossy file) with
    | error e => rw [hread] at hnone; cases hnone
    | ok found => rw [hread] at hnone; cases hnone

theorem loadKeyValues_eq_none {key : KeyBlock} :
    key.loadKeyValues utf8Lossy file = none ↔ key.valueCount < 0 := by
  rw [← @keysList_eq_none utf8Lossy file, KeyBlock.loadKeyValues]
  cases key.keysList utf8Lossy file with
  | none => exact ⟨fun _ => rfl, fun _ => rfl⟩
  | some result =>
    cases result with
    | error e => exact ⟨nofun, nofun⟩
    | ok names =>
      refine ⟨fun hnone => absurd hnone (foldlM_ne_none (fun values name => ?_) names []), nofun⟩
      cases key.getKeyValueWrap utf8Lossy file name with
      | error e => exact nofun
      | ok value => cases value <;> exact nofun

theorem subkeysList_eq_none {key : KeyBlock} : key.subkeysList utf8Lossy file = none ↔
    (∃ table, key.subkeyTable file = .ok table) ∧ key.subkeyCount < 0 := by
  rw [KeyBlock.subkeysList, withCapacity]
  cases key.subkeyTable file with
  | error e => exact ⟨nofun, nofun⟩
  | ok table =>
    rw [ofRead_ok_bind]
    split_ifs with hneg
    · exact ⟨fun _ => ⟨⟨table, rfl⟩, hneg⟩, fun _ => rfl⟩
    · refine ⟨fun hnone => ?_, fun h => absurd h.2 hneg⟩
      cases hread : (List.range key.subkeyCount.toNat).mapM (subkeyAt utf8Lossy file table) with
      | error e => rw [hread] at hnone; cases hnone
      | ok found => rw [hread] at hnone; cases hnone

theorem prepare_eq_none {key : KeyBlock} :
    key.prepare utf8Lossy file = none ↔ key.NegativeCount utf8Lossy file := by
  rw [KeyBlock.prepare, KeyBlock.NegativeCount, ← @loadKeyValues_eq_none utf8Lossy file,
    ← @subkeysList_eq_none utf8Lossy]
  cases key.getName utf8Lossy with
  | error e => exact ⟨nofun, nofun⟩
  | ok name =>
    rw [ofRead_ok_bind]
    cases key.loadKeyValues utf8Lossy file with
    | none => exact ⟨fun _ => ⟨⟨name, rfl⟩, .inl rfl⟩, fun _ => rfl⟩
    | some result =>
      cases result with
      | error e => exact ⟨nofun, nofun⟩
      | ok values =>
        refine ⟨fun hnone => ⟨⟨name, rfl⟩, .inr ⟨⟨values, rfl⟩, hnone⟩⟩, fun h => ?_⟩
        exact (h.2.resolve_left nofun).2

theorem jams_registerPlan_iff {key : KeyBlock} :
    Jams (registerPlan utf8Lossy file) key ↔ key.NegativeCount utf8Lossy file := by
  rw [← prepare_eq_none]
  constructor
  · intro hjams
    have hmem := hjams.mem
    rw [registerPlan] at hmem
    split at hmem
    · next hnone => exact hnone
    · simp at hmem
    · obtain ⟨name, -, hname⟩ := List.mem_flatMap.mp hmem
      rw [namedCalls] at hname
      split at hname <;> simp at hname
  · intro hnone
    exact ⟨[], [], by rw [registerPlan, hnone]; rfl, nofun⟩

theorem findSubkey_some {table : Nat} {name : String} {entries : List Nat} {key : KeyBlock}
    (hkey : findSubkey utf8Lossy file table name entries = .ok (some key)) :
    ∃ offset, KeyBlock.readFromReader file offset = .ok key := by
  induction entries with
  | nil => cases hkey
  | cons i entries ih =>
    rw [findSubkey] at hkey
    cases hentry : subkeyAt utf8Lossy file table i with
    | error e => rw [hentry] at hkey; cases hkey
    | ok found =>
      rw [hentry] at hkey
      cases found with
      | none => exact ih hkey
      | some subkey =>
        change (if subkey.name = name then pure (some subkey.block) else _) = _ at hkey
        split at hkey
        · cases hkey
          exact ⟨subkey.offset, subkeyAt_some hentry⟩
        · exact ih hkey

theorem getSubkeyByName_some {key subkey : KeyBlock} {name : String}
    (hsubkey : key.getSubkeyByName utf8Lossy file name = .ok (some subkey)) :
    ∃ offset, KeyBlock.readFromReader file offset = .ok subkey := by
  rw [KeyBlock.getSubkeyByName] at hsubkey
  cases hoffsets : Offsets.readFromFile file (absOffset key.subkeysOffset) with
  | error e => rw [hoffsets] at hsubkey; cases hsubkey
  | ok offsets =>
    rw [hoffsets] at hsubkey
    exact findSubkey_some hsubkey

theorem finite_enters_registerPlan :
    {key | ∃ k, Enters (registerPlan utf8Lossy file) k key}.Finite := by
  let blocks := (List.range file.length).filterMap fun offset =>
    (KeyBlock.readFromReader file offset).toOption
  refine (List.finite_toSet blocks).subset ?_
  rintro key ⟨k, henters⟩
  have hmem := henters.mem
  rw [registerPlan] at hmem
  split at hmem
  · simp at hmem
  · simp at hmem
  obtain ⟨name, -, hname⟩ := List.mem_flatMap.mp hmem
  rw [namedCalls] at hname
  split at hname
  · simp at hname
  · cases hname
  · next subkey hsubkey =>
    obtain rfl := Call.visit.inj (List.mem_singleton.mp hname)
    obtain ⟨offset, hread⟩ := getSubkeyByName_some hsubkey
    refine List.mem_filterMap.mpr ⟨offset, ?_, by rw [hread]; rfl⟩
    exact List.mem_range.mpr (KeyBlock.lt_length_of_readFromReader hread)

theorem buildRootManager_returns_iff :
    (∃ depth, outcome (buildRootManager utf8Lossy file depth) ≠ none) ↔
      ∀ root, KeyBlock.readFromReader file mainKeyOffset = .ok root →
        Returns (registerPlan utf8Lossy file) root := by
  cases hroot : KeyBlock.readFromReader file mainKeyOffset with
  | error e =>
    refine ⟨fun _ root h => (by cases h), fun _ => ⟨0, ?_⟩⟩
    rw [buildRootManager, hroot]
    exact nofun
  | ok root =>
    simp only [buildRootManager, hroot, ofRead_ok_bind, outcome_buildRegisterManager]
    exact ⟨fun h _ heq => (Except.ok.inj heq) ▸ h, fun h => h root rfl⟩

end Values

/-! ### Loading a hive -/

/-- No key that a pass comes to is found again below itself, and the second pass comes to no key
with a negative count. -/
structure Loadable (utf8Lossy : List UInt8 → String) (file : List UInt8) : Prop where
  cache : file.take 4 = hiveSignature → ∀ offset,
    Relation.ReflTransGen (Enters (cachePlan utf8Lossy file)) mainKeyOffset offset →
    ¬ Relation.TransGen (Enters (cachePlan utf8Lossy file)) offset offset
  tree : ∀ root, KeyBlock.readFromReader file mainKeyOffset = .ok root → ∀ key,
    Relation.ReflTransGen (Enters (registerPlan utf8Lossy file)) root key →
    ¬ key.NegativeCount utf8Lossy file ∧
      ¬ Relation.TransGen (Enters (registerPlan utf8Lossy file)) key key

/-- Both passes return just when the keys they come to do not lead back to themselves. -/
theorem passes_return_iff_loadable (utf8Lossy : List UInt8 → String) (file : List UInt8) :
    ((∃ depth, outcome (fromReader utf8Lossy file depth) ≠ none) ∧
      ∃ depth, outcome (buildRootManager utf8Lossy file depth) ≠ none) ↔
    Loadable utf8Lossy file := by
  rw [fromReader_returns_iff, buildRootManager_returns_iff]
  simp only [returns_iff finite_enters_cachePlan, returns_iff finite_enters_registerPlan,
    jams_registerPlan_iff]
  constructor
  · rintro ⟨hcache, htree⟩
    exact ⟨fun hsignature offset hreach => (hcache hsignature offset hreach).2, htree⟩
  · rintro ⟨hcache, htree⟩
    exact ⟨fun hsignature offset hreach =>
      ⟨not_jams_cachePlan offset, hcache hsignature offset hreach⟩, htree⟩

def asciiName (bytes : List UInt8) : String :=
  String.ofList (bytes.map fun b => Char.ofNat b.toNat)

def selfParent : List UInt8 :=
  hiveSignature ++ List.replicate 0x101c 0 ++
  -- the root key: one subkey, in the list right after it, and the name `A`
  (List.replicate 4 0 ++ [0x6e, 0x6b] ++ List.replicate 18 0 ++ [1, 0, 0, 0] ++
    List.replicate 4 0 ++ [0x6f, 1, 0, 0] ++ List.replicate 40 0 ++ [1, 0, 0, 0, 0x41] ++
    List.replicate 254 0) ++
  -- the list, whose entry is the offset of the root key
  (List.replicate 4 0 ++ [0x6c, 0x66] ++ List.replicate 10 0 ++ [0x20, 0, 0, 0])

def selfParentRoot : KeyBlock where
  blockSize := 0
  blockType := [0x6e, 0x6b]
  subkeyCount := 1
  subkeysOffset := 0x16f
  valueCount := 0
  offsetsOffset := 0
  nameLen := 1
  name := 0x41 :: List.replicate 254 0

/-- No depth of recursion is enough for either pass. -/
theorem selfParent_passes_never_return :
    (¬ ∃ depth, outcome (fromReader asciiName selfParent depth) ≠ none) ∧
      ¬ ∃ depth, outcome (buildRootManager asciiName selfParent depth) ≠ none := by
  have hroot : KeyBlock.readFromReader selfParent mainKeyOffset = .ok selfParentRoot := by
    decide +kernel
  have hcache : Enters (cachePlan asciiName selfParent) mainKeyOffset mainKeyOffset :=
    ⟨[], [], by decide +kernel, nofun⟩
  have htree : Enters (registerPlan asciiName selfParent) selfParentRoot selfParentRoot :=
    ⟨[], [], by decide +kernel, nofun⟩
  rw [fromReader_returns_iff, buildRootManager_returns_iff]
  constructor
  · intro hreturns
    exact not_returns_of_cycle (.single hcache) (hreturns (by decide +kernel))
  · intro hreturns
    exact not_returns_of_cycle (.single htree) (hreturns selfParentRoot hroot)

end Mwemu.Registry
