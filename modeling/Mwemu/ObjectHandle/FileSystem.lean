import Mwemu.ObjectHandle.WindowsPath

/-!
# The jail of the file system

A guest path is put below the root and brought to its normal form. The guest gets that form if it is
inside the directory of the drive, and otherwise the directory itself.
-/

namespace Mwemu.ObjectHandle

open Lib

/-- A path in normal form, as its names from the root of the host. -/
def hostPath (names : List Text) : Text :=
  if names = [] then ['/'] else names.flatMap ('/' :: ·)

def parentDir : Text := ['.', '.']

/-- The crate `soft_canonicalize`: a normal form has no `..`, and it is its own normal form. -/
structure SoftCanonicalize where
  run : Text → Except Text (List Text)
  parentDir_notMem : ∀ path names, run path = .ok names → parentDir ∉ names
  run_hostPath : ∀ path names, run path = .ok names → run (hostPath names) = .ok names

structure FileSystem where
  root : Text
  mappings : List (WindowsPath × Text)

/-- `Path::join` on a host that is not Windows. -/
def joinPath (base path : Text) : Text :=
  if path.head? = some '/' then path
  else if base = [] ∨ base.getLast? = some '/' then base ++ path
  else base ++ '/' :: path

def WindowsPath.toPortablePath (p : WindowsPath) : Text :=
  p.drive.toList ++ p.folders.flatMap ('/' :: ·)

namespace FileSystem

variable (softCanonicalize : SoftCanonicalize) (fs : FileSystem) (p : WindowsPath)

def isEscapingRelativePath (path : List Text) : Bool := path.head?.all (· = parentDir)

def relative (path base : Text) : Option (List Text) := do
  let absPath ← (softCanonicalize.run path).toOption
  let absBase ← (softCanonicalize.run base).toOption
  if absBase <+: absPath then some (absPath.drop absBase.length) else none

def isSubpath (normalRoot normalTarget : Text) : Bool :=
  (relative softCanonicalize normalTarget normalRoot).any (!isEscapingRelativePath ·)

/-- The directory of the drive. -/
def rootPath : Text := joinPath fs.root [p.drive.getD 'c']

def translate : Except Text Text :=
  if !p.isAbsolute then
    .error ("Only absolute paths can be translated: ".toList ++ p.asWindowsString)
  else match fs.mappings.lookup p with
    | some mapped => .ok mapped
    | none => do
      let path ← softCanonicalize.run (joinPath fs.root p.toPortablePath)
      return if isSubpath softCanonicalize (fs.rootPath p) (hostPath path) then hostPath path
        else fs.rootPath p

variable {softCanonicalize}

/-- The test for a subpath takes the normal form of a normal form once more, which changes nothing,
so that it compares the names. -/
theorem inside_of_isSubpath {path root : Text} {names : List Text}
    (hnames : softCanonicalize.run path = .ok names)
    (hsub : isSubpath softCanonicalize root (hostPath names)) :
    ∃ base inner, softCanonicalize.run root = .ok base ∧ inner ≠ [] ∧ names = base ++ inner := by
  rw [isSubpath, relative, softCanonicalize.run_hostPath path names hnames] at hsub
  cases hbase : softCanonicalize.run root with
  | error e => simp [hbase, Except.toOption] at hsub
  | ok base =>
    by_cases hle : base <+: names
    · obtain ⟨inner, rfl⟩ := hle
      refine ⟨base, inner, rfl, ?_, rfl⟩
      rintro rfl
      simp [hbase, Except.toOption, isEscapingRelativePath] at hsub
    · simp [hbase, hle, Except.toOption] at hsub

/-- Without mappings, a guest path is refused, or taken to the directory of its drive, or to a path
in normal form that goes on from there. -/
theorem translate_confined (softCanonicalize : SoftCanonicalize) (root s : Text) :
    let translated := translate softCanonicalize ⟨root, []⟩ (.fromString s)
    let drive := rootPath ⟨root, []⟩ (.fromString s)
    (∃ e, translated = .error e) ∨ translated = .ok drive ∨
      ∃ base inner, softCanonicalize.run drive = .ok base ∧ inner ≠ [] ∧ parentDir ∉ inner ∧
        translated = .ok (hostPath (base ++ inner)) := by
  intro translated drive
  unfold translated translate
  split
  · exact .inl ⟨_, rfl⟩
  cases hrun : softCanonicalize.run (joinPath root (WindowsPath.fromString s).toPortablePath) with
  | error e => exact .inl ⟨e, by simp [bind, Except.bind]⟩
  | ok names =>
    simp only [List.lookup, bind, Except.bind, pure, Except.pure]
    by_cases hsub : isSubpath softCanonicalize drive (hostPath names)
    · obtain ⟨base, inner, hbase, hne, rfl⟩ := inside_of_isSubpath hrun hsub
      have hparent := softCanonicalize.parentDir_notMem _ _ hrun
      refine .inr (.inr ⟨base, inner, hbase, hne, fun h => hparent (List.mem_append_right _ h), ?_⟩)
      rw [if_pos hsub]
    · rw [if_neg hsub]
      exact .inr (.inl rfl)

section Lexical

/-! ### A host without links, whose working directory is its root -/

def descend (names : List Text) (name : Text) : List Text :=
  if name = [] ∨ name = ['.'] then names
  else if name = parentDir then names.dropLast
  else names ++ [name]

/-- The names behind `names` when `name` is the component that is being read. -/
def normalize (names : List Text) (name : Text) : Text → List Text
  | [] => descend names name
  | c :: s =>
    if c = '/' then normalize (descend names name) [] s else normalize names (name ++ [c]) s

/-- A component that is a name of its own. -/
def Plain (name : Text) : Prop :=
  '/' ∉ name ∧ name ≠ [] ∧ name ≠ ['.'] ∧ name ≠ parentDir

variable {names : List Text} {name s : Text}

theorem descend_plain (hname : Plain name) : descend names name = names ++ [name] := by
  rw [descend, if_neg (not_or.mpr ⟨hname.2.1, hname.2.2.1⟩), if_neg hname.2.2.2]

theorem plain_descend (hnames : ∀ n ∈ names, Plain n) (hname : '/' ∉ name) :
    ∀ n ∈ descend names name, Plain n := by
  rw [descend]
  split
  · exact hnames
  split
  · exact fun n hn => hnames n (List.mem_of_mem_dropLast hn)
  · intro n hn
    rcases List.mem_append.mp hn with hn | hn
    · exact hnames n hn
    · simp_all [Plain]

theorem plain_normalize (hnames : ∀ n ∈ names, Plain n) (hname : '/' ∉ name) :
    ∀ n ∈ normalize names name s, Plain n := by
  induction s generalizing names name with
  | nil => exact plain_descend hnames hname
  | cons c s ih =>
    rw [normalize]
    split
    · exact ih (plain_descend hnames hname) (List.not_mem_nil)
    · next hc => exact ih hnames (by simp [hname, Ne.symm hc])

theorem normalize_append (hname : '/' ∉ name) (before : Text) :
    normalize names before (name ++ s) = normalize names (before ++ name) s := by
  induction name generalizing before with
  | nil => rw [List.append_nil, List.nil_append]
  | cons c name ih =>
    rw [List.mem_cons, not_or] at hname
    rw [List.cons_append, normalize, if_neg (Ne.symm hname.1), ih hname.2, List.append_assoc]
    rfl

theorem normalize_flatMap {inner : List Text} (hinner : ∀ n ∈ inner, Plain n) :
    normalize names name (inner.flatMap ('/' :: ·)) = descend names name ++ inner := by
  induction inner generalizing names name with
  | nil => exact (List.append_nil _).symm
  | cons n inner ih =>
    have hn := hinner n List.mem_cons_self
    rw [List.flatMap_cons, List.cons_append, normalize, if_pos rfl, normalize_append hn.1,
      ih fun k hk => hinner k (List.mem_cons_of_mem n hk), List.nil_append, descend_plain hn,
      List.append_assoc]
    rfl

def lexical : SoftCanonicalize where
  run path := .ok (normalize [] [] path)
  parentDir_notMem path names hrun hmem := by
    obtain rfl := Except.ok.inj hrun
    exact (plain_normalize (by simp) (by simp) _ hmem).2.2.2 rfl
  run_hostPath path names hrun := by
    obtain rfl := Except.ok.inj hrun
    rw [hostPath]
    split
    · next hnil => rw [hnil]; rfl
    · rw [normalize_flatMap (plain_normalize (by simp) (by simp))]
      rfl

end Lexical

def jail : FileSystem := ⟨"/jail".toList, []⟩

/-- A path that climbs out of its drive, and one that comes back to it. -/
theorem translate_confined_dotDot :
    translate lexical jail (.fromString "c:\\..\\..\\etc".toList) = .ok "/jail/c".toList ∧
      translate lexical jail (.fromString "c:\\a\\..\\b".toList) = .ok "/jail/c/b".toList ∧
      ∃ base inner, lexical.run "/jail/c".toList = .ok base ∧ inner ≠ [] ∧ parentDir ∉ inner ∧
        "/jail/c/b".toList = hostPath (base ++ inner) := by
  have hback : translate lexical jail (.fromString "c:\\a\\..\\b".toList) =
      .ok "/jail/c/b".toList := by
    decide +kernel
  refine ⟨by decide +kernel, hback, ?_⟩
  obtain ⟨e, herror⟩ | hdrive | ⟨base, inner, hbase, hne, hparent, hinside⟩ :=
    translate_confined lexical "/jail".toList "c:\\a\\..\\b".toList
  · cases herror.symm.trans hback
  · exact absurd (hback.symm.trans hdrive) (by decide +kernel)
  · exact ⟨base, inner, hbase, hne, hparent, Except.ok.inj (hback.symm.trans hinside)⟩

end FileSystem

end Mwemu.ObjectHandle
