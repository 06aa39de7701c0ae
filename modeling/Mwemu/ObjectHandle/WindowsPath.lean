import Mwemu.Lib.Text

/-!
# Windows paths

A path is parsed into a drive and folders in lower case. The root of a drive has one empty folder,
which a join keeps in front of the folders that it adds, so that the joined path is not the parsed
one.
-/

namespace Mwemu.ObjectHandle

open Lib List Option

structure WindowsPath where
  drive : Option Char
  folders : List Text
  deriving DecidableEq

namespace WindowsPath

def uncPrefix : Text := ['\\', '\\', '?', '\\']

def isSeparator (c : Char) : Bool := c = '\\' || c = '/'

def stripUncPrefix (s : Text) : Text :=
  if uncPrefix.isPrefixOf s then s.drop uncPrefix.length else s

/-- The test for a drive letter at the start of a path. -/
def hasDrive (s : Text) : Bool := s.head?.any Char.isAlpha && s[1]? = some ':'

/-- The drive, and the characters that are left for the folders. -/
def splitDrive (s : Text) : Option Char × Text :=
  if hasDrive s then
    let rest := s.drop 2
    (s.head?.map Char.toLower, if rest.head?.any isSeparator then rest.drop 1 else rest)
  else (none, s)

/-- What the end of a folder adds to the path. -/
def pushFolder (current : Text) : List Text :=
  if current = [] then [] else [current.toAsciiLowercase]

/-- The loop over the characters, with the folder that is being read. -/
def parseFolders (current : Text) : Text → List Text
  | [] => pushFolder current
  | c :: rest =>
    if isSeparator c then pushFolder current ++ parseFolders [] rest
    else parseFolders (current ++ [c]) rest

def fromString (s : Text) : WindowsPath :=
  let split := splitDrive (stripUncPrefix s)
  let folders := parseFolders [] split.2
  ⟨split.1, if split.1.isSome ∧ folders = [] then [[]] else folders⟩

variable (p : WindowsPath)

def isAbsolute : Bool := p.drive.isSome

def isRelative : Bool := !p.isAbsolute

def printFolders (absolute : Bool) : Bool → List Text → Text
  | _, [] => []
  | first, folder :: folders =>
    (if !first || (absolute && folder = []) then ['\\'] else []) ++ folder ++
      printFolders absolute false folders

def asWindowsString : Text :=
  let drive := p.drive.elim [] ([·, ':', '\\'])
  let path := drive ++ printFolders p.isAbsolute true p.folders
  if p.isAbsolute && (path.map Char.utf8Size).sum = 2 then path ++ ['\\'] else path

def join (other : WindowsPath) : WindowsPath :=
  if other.isAbsolute then other else ⟨p.drive, p.folders ++ other.folders⟩

variable {p} {s t a b r : Text} {c : Char} {folders : List Text} {absolute : Bool}

theorem asWindowsString_eq : p.asWindowsString =
      p.drive.elim [] ([·, ':', '\\']) ++ printFolders p.isAbsolute true p.folders := by
  refine if_neg ?_
  cases hdrive : p.drive with
  | none => simp [isAbsolute, hdrive]
  | some d =>
    have hd := d.utf8Size_pos
    simp [show ':'.utf8Size = 1 from rfl, show '\\'.utf8Size = 1 from rfl]
    omega

/-! ## Folders -/

/-- A folder as the parser leaves it. -/
def Folder (f : Text) : Prop := f ≠ [] ∧ ∀ c ∈ f, isSeparator c = false ∧ c.toLower = c

/-- The number of characters other than separators. -/
def solid (s : Text) : Nat := s.countP (!isSeparator ·)

theorem isSeparator_toLower : isSeparator c.toLower = isSeparator c := by
  simp only [isSeparator, Text.toLower_eq_iff (show '\\'.isAlpha = false from rfl),
    Text.toLower_eq_iff (show '/'.isAlpha = false from rfl)]

theorem isSeparator_of_isAlpha (hc : c.isAlpha) : isSeparator c = false := by
  rw [isSeparator, Bool.or_eq_false_iff, decide_eq_false_iff_not, decide_eq_false_iff_not]
  exact ⟨ne_of_apply_ne Char.isAlpha (by simp [hc]), ne_of_apply_ne Char.isAlpha (by simp [hc])⟩

theorem folders_of_parseFolders (hr : ∀ c ∈ r, isSeparator c = false) :
    ∀ f ∈ parseFolders r s, Folder f := by
  have hpush {r : Text} (hr : ∀ c ∈ r, isSeparator c = false) :
      ∀ f ∈ pushFolder r, Folder f := by
    rw [pushFolder, Text.toAsciiLowercase_eq]
    split
    · simp
    · next hne => simpa [Folder, isSeparator_toLower] using ⟨hne, hr⟩
  fun_induction parseFolders r s with
  | case1 => exact hpush hr
  | case2 r c s _ ih => exact forall_mem_append.mpr ⟨hpush hr, ih (by simp)⟩
  | case3 r c s hc ih =>
    exact ih (forall_mem_append.mpr ⟨hr, by simpa using hc⟩)

theorem parseFolders_append :
    parseFolders r (s ++ '\\' :: t) = parseFolders r s ++ parseFolders [] t := by
  fun_induction parseFolders r s with
  | case1 => rfl
  | case2 r c s hc ih => rw [cons_append, parseFolders, if_pos hc, ih, append_assoc]
  | case3 r c s hc ih => rw [cons_append, parseFolders, if_neg hc, ih]

theorem parseFolders_folder {f : Text} (hf : Folder f) : parseFolders [] f = [f] := by
  have hread {r s : Text} (hs : ∀ c ∈ s, isSeparator c = false) :
      parseFolders r s = pushFolder (r ++ s) := by
    fun_induction parseFolders r s with
    | case1 => rw [append_nil]
    | case2 r c s hc => exact absurd hc (by simp [hs c])
    | case3 r c s hc ih => rw [ih fun d hd => hs d (.tail _ hd), append_assoc]; rfl
  rw [hread fun c hc => (hf.2 c hc).1, nil_append, pushFolder, if_neg hf.1,
    Text.toAsciiLowercase_eq, List.map_congr_left fun c hc => (hf.2 c hc).2, List.map_id']

theorem parse_printFolders (hfolders : ∀ f ∈ folders, Folder f) :
    parseFolders [] (printFolders absolute true folders) = folders := by
  induction folders with
  | nil => rfl
  | cons f folders ih =>
    rw [forall_mem_cons] at hfolders
    rw [printFolders, if_neg (by simp [hfolders.1.1]), nil_append]
    cases folders with
    | nil => rw [printFolders, append_nil, parseFolders_folder hfolders.1]
    | cons g folders =>
      have hg : g ≠ [] := (hfolders.2 g (.head _)).1
      have ih : parseFolders [] (g ++ printFolders absolute false folders) = g :: folders := by
        simpa [printFolders, hg] using ih hfolders.2
      simp [printFolders, parseFolders_append, parseFolders_folder hfolders.1, ih]

/-- The folders of a text hold the characters that are not separators. -/
theorem length_parseFolders : (parseFolders r s).flatten.length = r.length + solid s := by
  have hpush (r : Text) : (pushFolder r).flatten.length = r.length := by
    rw [pushFolder, Text.toAsciiLowercase_eq]
    split
    · next hr => simp [hr]
    · simp
  fun_induction parseFolders r s with
  | case1 => exact hpush _
  | case2 r c s hc ih => simp [hpush, ih, solid, hc]
  | case3 r c s hc ih => rw [ih]; simp [solid, hc]; omega

theorem parseFolders_eq_nil : parseFolders [] s = [] ↔ solid s = 0 := by
  have hlen := length_parseFolders (r := []) (s := s)
  rw [length_nil, Nat.zero_add] at hlen
  rw [← hlen, length_eq_zero_iff, flatten_eq_nil_iff]
  refine ⟨fun h => by simp [h], fun h => eq_nil_iff_forall_not_mem.mpr fun f hf => ?_⟩
  exact (folders_of_parseFolders (by simp) f hf).1 (h f hf)

/-! ## Drives -/

theorem hasDrive_append : hasDrive (t ++ '\\' :: s) = hasDrive t := by
  match t with
  | [] => rfl
  | [c] => simp [hasDrive]
  | c :: d :: t => rfl

theorem splitDrive_append : (splitDrive (t ++ '\\' :: s)).1 = (splitDrive t).1 ∧
      parseFolders [] (splitDrive (t ++ '\\' :: s)).2 =
        parseFolders [] (splitDrive t).2 ++ parseFolders [] s := by
  rw [splitDrive, splitDrive, hasDrive_append]
  split
  · next hdrive =>
    match t with
    | [] | [c] => simp [hasDrive] at hdrive
    | [c, d] => exact ⟨rfl, rfl⟩
    | c :: d :: e :: t =>
      refine ⟨rfl, ?_⟩
      simp only [cons_append, drop_succ_cons, drop_zero, List.head?_cons]
      split
      · exact parseFolders_append
      · exact parseFolders_append (s := e :: t)
  · exact ⟨rfl, parseFolders_append⟩

/-- The characters of a path other than separators. -/
def weight (p : WindowsPath) : Nat := p.drive.elim 0 (fun _ => 2) + p.folders.flatten.length

theorem solid_splitDrive :
    (splitDrive t).1.elim 0 (fun _ => 2) + solid (splitDrive t).2 = solid t := by
  rw [splitDrive]
  split
  · next hdrive =>
    match t with
    | [] | [c] => simp [hasDrive] at hdrive
    | c :: d :: t =>
      rw [hasDrive, Bool.and_eq_true] at hdrive
      obtain rfl : d = ':' := by simpa using hdrive.2
      have hc := isSeparator_of_isAlpha hdrive.1
      rw [solid, solid, countP_cons_of_pos (by simp [hc]), countP_cons_of_pos rfl]
      cases t with
      | nil => rfl
      | cons e t => by_cases he : isSeparator e <;> simp [he] <;> omega
  · exact Nat.zero_add _

theorem weight_fromString : (fromString s).weight = solid (stripUncPrefix s) := by
  have hlen := length_parseFolders (r := []) (s := (splitDrive (stripUncPrefix s)).2)
  rw [← solid_splitDrive, weight, fromString]
  dsimp only
  split
  · next hroot =>
    rw [hroot.2] at hlen
    exact congrArg _ (hlen.trans (Nat.zero_add _))
  · exact congrArg _ (hlen.trans (Nat.zero_add _))

theorem parseFolders_ne_nil (hr : r ≠ []) :
    ∃ f folders, parseFolders r s = (r ++ f).toAsciiLowercase :: folders := by
  induction s generalizing r with
  | nil => exact ⟨[], [], by rw [parseFolders, pushFolder, if_neg hr, append_nil]⟩
  | cons c s ih =>
    rw [parseFolders]
    split
    · exact ⟨[], _, by rw [pushFolder, if_neg hr, append_nil]; rfl⟩
    · obtain ⟨f, folders, hparse⟩ := ih (r := r ++ [c]) (by simp)
      exact ⟨c :: f, folders, by rw [hparse, append_assoc]; rfl⟩

theorem hasDrive_printFolders : hasDrive (printFolders false true (parseFolders [] t)) =
      hasDrive (t.dropWhile isSeparator) := by
  have hcolon {c : Char} : c.toLower = ':' ↔ c = ':' := Text.toLower_eq_iff rfl
  induction t with
  | nil => rfl
  | cons c t ih =>
    rw [parseFolders, dropWhile_cons]
    split
    · exact ih
    match t with
    | [] => simp [parseFolders, pushFolder, printFolders, hasDrive, Text.toAsciiLowercase]
    | d :: t =>
      rw [parseFolders]
      split
      · next hd =>
        have hd : d ≠ ':' := ne_of_apply_ne isSeparator (by rw [hd]; decide)
        cases parseFolders [] t <;>
          simp [pushFolder, printFolders, hasDrive, Text.toAsciiLowercase, hd]
      · obtain ⟨f, folders, hparse⟩ := parseFolders_ne_nil (r := [c, d]) (s := t) nofun
        rw [nil_append, singleton_append, hparse]
        simp [printFolders, hasDrive, Text.toAsciiLowercase_eq, hcolon]

theorem head_printFolders (hfolders : ∀ f ∈ folders, Folder f) :
    ∀ c ∈ (printFolders absolute true folders).head?, isSeparator c = false := by
  match folders with
  | [] => exact nofun
  | [] :: _ => exact ((hfolders _ (.head _)).1 rfl).elim
  | (c :: f) :: _ => simpa [printFolders] using ((hfolders _ (.head _)).2 c (.head _)).1

theorem stripUncPrefix_eq (hs : ∀ c ∈ s.head?, isSeparator c = false) : stripUncPrefix s = s := by
  refine if_neg fun hpre => ?_
  obtain ⟨rest, rfl⟩ := isPrefixOf_iff_prefix.mp hpre
  cases hs '\\' rfl

theorem fromString_relative (hdrive : ¬hasDrive (stripUncPrefix s)) :
    fromString s = ⟨none, parseFolders [] (stripUncPrefix s)⟩ := by
  simp [fromString, splitDrive, hdrive]

theorem fromString_absolute (hdrive : hasDrive (stripUncPrefix s)) :
    ∃ c : Char, c.isAlpha ∧ (splitDrive (stripUncPrefix s)).1 = some c.toLower := by
  obtain ⟨c, hhead, hc⟩ := (Option.any_eq_true ..).mp (Bool.and_eq_true .. |>.mp hdrive).1
  exact ⟨c, hc, by simp [splitDrive, hdrive, hhead]⟩

/-- No drive comes to light where the separators in front of a path are left out. -/
def Prints (s : Text) : Prop :=
  hasDrive (stripUncPrefix s) ∨ ¬hasDrive ((stripUncPrefix s).dropWhile isSeparator)

theorem fromString_toString_iff :
    fromString (fromString s).asWindowsString = fromString s ↔ Prints s := by
  have hfolders {t : Text} := folders_of_parseFolders (r := []) (s := t) nofun
  rw [asWindowsString_eq]
  by_cases hdrive : hasDrive (stripUncPrefix s)
  · refine iff_of_true ?_ (.inl hdrive)
    obtain ⟨c, hc, hsplit⟩ := fromString_absolute hdrive
    have hhead := isSeparator_of_isAlpha ((Char.isAlpha_toLower_eq_isAlpha c).trans hc)
    simp only [fromString, hsplit, elim_some, isAbsolute, isSome_some, true_and]
    have hfolders := hfolders (t := (splitDrive (stripUncPrefix s)).2)
    generalize parseFolders [] (splitDrive (stripUncPrefix s)).2 = folders at hfolders ⊢
    rw [stripUncPrefix_eq (by simpa using hhead)]
    simp only [splitDrive, hasDrive, cons_append]
    simp [hc, isSeparator]
    split
    · rfl
    · next h => rw [parse_printFolders hfolders, if_neg h]
  · rw [fromString_relative hdrive, Prints, ← hasDrive_printFolders, or_iff_right hdrive]
    dsimp only [elim_none, nil_append, isAbsolute, isSome_none]
    have hstrip : stripUncPrefix (printFolders false true _) = _ :=
      stripUncPrefix_eq (head_printFolders (hfolders (t := stripUncPrefix s)))
    by_cases hprint : hasDrive (printFolders false true (parseFolders [] (stripUncPrefix s)))
    · obtain ⟨c, -, hsplit⟩ := fromString_absolute (hstrip.symm ▸ hprint)
      simp [fromString, hsplit, hprint]
    · rw [fromString_relative (hstrip.symm ▸ hprint), hstrip, parse_printFolders hfolders]
      exact iff_of_true rfl hprint

/-! ## Joins -/

/-- The joined text loses as many marks of a prefix as its parts only where it loses theirs. -/
theorem stripUncPrefix_join (hsolid : solid (stripUncPrefix (a ++ '\\' :: b)) =
      solid (stripUncPrefix a) + solid (stripUncPrefix b)) :
    stripUncPrefix (a ++ '\\' :: b) = stripUncPrefix a ++ '\\' :: stripUncPrefix b := by
  have hcases (s : Text) : stripUncPrefix s = s ∨ ∃ t, s = uncPrefix ++ t := by
    rw [stripUncPrefix, ite_eq_right_iff, or_iff_not_imp_left, Classical.not_imp]
    rintro ⟨hpre, -⟩
    exact (List.isPrefixOf_iff_prefix.mp hpre).imp fun t ht => ht.symm
  have hstrip {s : Text} : stripUncPrefix (uncPrefix ++ s) = s := by simp [stripUncPrefix]
  have hmark {s : Text} : solid (uncPrefix ++ s) = solid s + 1 :=
    countP_append.trans (Nat.add_comm ..)
  have hjoin {a b : Text} : solid (a ++ '\\' :: b) = solid a + solid b := countP_append
  obtain ha | ⟨a, rfl⟩ := hcases a <;> obtain hb | ⟨b, rfl⟩ := hcases b
  · obtain hw | ⟨w, hw⟩ := hcases (a ++ '\\' :: b)
    · rw [ha, hb, hw]
    · have hsame := congrArg solid hw
      rw [hw, hstrip, ha, hb] at hsolid
      rw [hmark, hjoin] at hsame
      omega
  · obtain hw | ⟨w, hw⟩ := hcases (a ++ '\\' :: (uncPrefix ++ b))
    · rw [hw, ha, hjoin, hmark, hstrip] at hsolid
      omega
    rw [hw, hstrip, hstrip, ha]
    match a with
    | [] | [_] | [_, _] => simp [uncPrefix] at hw
    | [c, d, e] =>
      simp only [uncPrefix, cons_append, nil_append, List.cons.injEq, true_and] at hw
      obtain ⟨rfl, rfl, rfl, rfl⟩ := hw
      rfl
    | c :: d :: e :: f :: a =>
      simp only [uncPrefix, cons_append, nil_append, List.cons.injEq] at hw
      obtain ⟨rfl, rfl, rfl, rfl, -⟩ := hw
      exact absurd (congrArg List.length (hstrip.symm.trans ha)) (by simp; omega)
  · rw [append_assoc, hstrip, hstrip, hb]
  · rw [append_assoc, hstrip, hstrip, hstrip, hjoin, hmark] at hsolid
    omega

theorem weight_join {other : WindowsPath} (hother : other.isRelative) :
    (p.join other).weight = p.weight + other.weight := by
  rw [isRelative, Bool.not_eq_true'] at hother
  have hdrive : other.drive = none := by simpa [isAbsolute] using hother
  simp [join, hother, weight, hdrive, Nat.add_assoc]

/-- The prefixes that are stripped from two texts are those stripped from the joined one, and the
first is not a bare drive, unless the second has no folder. -/
def Joins (a b : Text) : Prop :=
  stripUncPrefix (a ++ '\\' :: b) = stripUncPrefix a ++ '\\' :: stripUncPrefix b ∧
    ¬(hasDrive (stripUncPrefix a) ∧ solid (stripUncPrefix a) = 2 ∧ solid (stripUncPrefix b) ≠ 0)

theorem join_iff (hb : (fromString b).isRelative) :
    (fromString a).join (fromString b) = fromString (a ++ '\\' :: b) ↔ Joins a b := by
  have hdrive : ¬hasDrive (stripUncPrefix b) := by
    intro hdrive
    obtain ⟨c, -, hsplit⟩ := fromString_absolute hdrive
    simp [isRelative, isAbsolute, fromString, hsplit] at hb
  by_cases hstrip : stripUncPrefix (a ++ '\\' :: b) = stripUncPrefix a ++ '\\' :: stripUncPrefix b
  · rw [Joins, and_iff_right hstrip, fromString_relative hdrive, join,
      if_neg (by simp [isAbsolute])]
    obtain ⟨hfst, hsnd⟩ := splitDrive_append (t := stripUncPrefix a) (s := stripUncPrefix b)
    simp only [fromString, hstrip, hfst, hsnd]
    by_cases ha : hasDrive (stripUncPrefix a)
    · obtain ⟨c, -, hsplit⟩ := fromString_absolute ha
      have hsolid := solid_splitDrive (t := stripUncPrefix a)
      rw [hsplit, elim_some] at hsolid
      simp only [hsplit, ha, ← hsolid, Nat.add_eq_left, Ne, ← parseFolders_eq_nil, true_and,
        isSome_some]
      cases parseFolders [] (splitDrive (stripUncPrefix a)).2 <;>
        cases parseFolders [] (stripUncPrefix b) <;> simp
    · simp [ha, splitDrive]
  · refine iff_of_false (fun hjoin => hstrip (stripUncPrefix_join ?_)) fun hjoins => hstrip hjoins.1
    rw [← weight_fromString, ← hjoin, weight_join hb, weight_fromString, weight_fromString]

/-- Printing and parsing a path gives it back unless a drive follows separators in front of a
relative one, and a join is the parse of the joined text unless it extends the root of a drive. -/
theorem normal_form_iff (s a b : Text) :
    (fromString (fromString s).asWindowsString = fromString s ↔ Prints s) ∧
      ((fromString b).isRelative →
        ((fromString a).join (fromString b) = fromString (a ++ '\\' :: b) ↔ Joins a b)) :=
  ⟨fromString_toString_iff, join_iff⟩

theorem root_join_not_parsed : (fromString ['x']).isRelative ∧
      (fromString ['C', ':', '\\']).join (fromString ['x']) ≠
        fromString (['C', ':', '\\'] ++ '\\' :: ['x']) := by decide

end WindowsPath

end Mwemu.ObjectHandle
