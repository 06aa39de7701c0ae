import Mwemu.Maps.WellFormed

/-!
# What the code-write log covers

`codeAt` is the memory the instruction cache may have decoded: the bytes of the executable regions.
A step is `Logged` when every address at which it changes `codeAt` is in the log afterwards and
nothing that was covered before is lost.
-/

namespace Mwemu

open Mwemu.Lib List Option

namespace Mem64

def byteAt (r : Mem64) (x : Nat) : Option UInt8 :=
  if r.inside x then r.mem[x - r.baseAddr]? else none

def codeAt (r : Mem64) (x : Nat) : Option UInt8 :=
  if r.canExecute then r.byteAt x else none

variable {r : Mem64}

theorem codeAt_of_not_inside {x : Nat} (hx : ¬ r.inside x = true) : r.codeAt x = none := by
  rw [codeAt, byteAt, if_neg hx, ite_self]

theorem codeAt_of_not_canExecute (hexec : r.canExecute = false) (x : Nat) : r.codeAt x = none := by
  rw [codeAt, hexec, if_neg Bool.false_ne_true]

end Mem64

namespace Maps

variable {m m' m'' : Maps}

def byteAt (m : Maps) (x : Nat) : Option UInt8 :=
  (m.searchMaps x).bind fun found => found.2.byteAt x

def executableAt (m : Maps) (x : Nat) : Bool :=
  (m.searchMaps x).any fun found => found.2.canExecute

def codeAt (m : Maps) (x : Nat) : Option UInt8 :=
  (m.searchMaps x).bind fun found => found.2.codeAt x

variable {x : Nat}

theorem byteAt_of_codeAt {b : UInt8} (hcode : m.codeAt x = some b) : m.byteAt x = some b := by
  rw [codeAt, bind_eq_some_iff] at hcode
  obtain ⟨found, hfound, hcode⟩ := hcode
  rw [Mem64.codeAt, ite_none_right_eq_some] at hcode
  rw [byteAt, hfound]
  exact hcode.2

theorem codeAt_of_executableAt (hexec : m.executableAt x = true) : m.codeAt x = m.byteAt x := by
  rw [executableAt, any_eq_true_iff_get] at hexec
  obtain ⟨hsome, hexec⟩ := hexec
  obtain ⟨found, hfound⟩ := isSome_iff_exists.mp hsome
  simp only [hfound, get_some] at hexec
  rw [codeAt, byteAt, hfound, bind_some, bind_some, Mem64.codeAt, if_pos hexec]

theorem Wf.byteAt_of_executableAt (hwf : m.Wf) (hexec : m.executableAt x = true) :
    ∃ b, m.byteAt x = some b := by
  rw [executableAt, any_eq_true_iff_get] at hexec
  obtain ⟨⟨key, r⟩, hfound⟩ := isSome_iff_exists.mp hexec.1
  obtain ⟨hget, hinside⟩ := hwf.searchMaps_eq_some.mp hfound
  have hsized := hwf.sized key r hget
  have hrange := inside_eq_true.mp hinside
  have hidx : x - r.baseAddr < r.mem.length := by
    rw [Mem64.size] at hsized
    omega
  refine ⟨r.mem[x - r.baseAddr], ?_⟩
  rw [byteAt, hfound, bind_some, Mem64.byteAt, if_pos hinside]
  exact List.getElem?_eq_getElem hidx

theorem Wf.codeAt_ne (hwf : m.Wf) (hwf' : m'.Wf)
    (hexec : m.executableAt x = true ∨ m'.executableAt x = true)
    (hbyte : m.byteAt x ≠ m'.byteAt x) : m'.codeAt x ≠ m.codeAt x := by
  intro hcode
  rcases hexec with hexec | hexec
  · obtain ⟨b, hb⟩ := hwf.byteAt_of_executableAt hexec
    rw [codeAt_of_executableAt hexec, hb] at hcode
    exact hbyte (hb.trans (byteAt_of_codeAt hcode).symm)
  · obtain ⟨b, hb⟩ := hwf'.byteAt_of_executableAt hexec
    rw [codeAt_of_executableAt hexec, hb] at hcode
    exact hbyte ((byteAt_of_codeAt hcode.symm).trans hb.symm)

/-! ### One change -/

variable {key : Nat}

theorem Wf.codeAt_of_inside (hwf : m.Wf) {r : Mem64} (hget : m.memSlab.get key = some r)
    (hinside : r.inside x = true) : m.codeAt x = r.codeAt x := by
  rw [codeAt, hwf.searchMaps_eq_some.mpr ⟨hget, hinside⟩, bind_some]

theorem Wf.codeAt_of_others (hwf : m.Wf)
    (hothers : ∀ k r, k ≠ key → m.memSlab.get k = some r → ¬ r.inside x = true) :
    m.codeAt x = (m.memSlab.get key).bind fun r => r.codeAt x := by
  rw [codeAt]
  cases hfound : m.searchMaps x with
  | some found =>
    obtain ⟨k, r⟩ := found
    obtain ⟨hget, hinside⟩ := hwf.searchMaps_eq_some.mp hfound
    obtain rfl : k = key := by
      by_contra hne
      exact hothers k r hne hget hinside
    rw [hget, bind_some, bind_some]
  | none =>
    cases hget : m.memSlab.get key with
    | none => rfl
    | some r =>
      have hinside : ¬ r.inside x = true := by
        intro hinside
        rw [hwf.searchMaps_eq_some.mpr ⟨hget, hinside⟩] at hfound
        cases hfound
      rw [bind_none, bind_some, Mem64.codeAt_of_not_inside hinside]

theorem Changes.codeAt_eq {new : Option Mem64} (hchanges : Changes m m' key new) (hwf : m.Wf)
    (hsame : (new.bind fun r => r.codeAt x) = (m.memSlab.get key).bind fun r => r.codeAt x) :
    m'.codeAt x = m.codeAt x := by
  have hwf' := hchanges.wf hwf
  by_cases hother : ∃ k r, k ≠ key ∧ m.memSlab.get k = some r ∧ r.inside x = true
  · obtain ⟨k, r, hne, hget, hinside⟩ := hother
    have hget' := (hchanges.get_of_ne hne).trans hget
    rw [hwf.codeAt_of_inside hget hinside, hwf'.codeAt_of_inside hget' hinside]
  have hothers : ∀ k r, k ≠ key → m.memSlab.get k = some r → ¬ r.inside x = true :=
    fun k r hne hget hinside => hother ⟨k, r, hne, hget, hinside⟩
  have hothers' : ∀ k r, k ≠ key → m'.memSlab.get k = some r → ¬ r.inside x = true :=
    fun k r hne hget => hothers k r hne ((hchanges.get_of_ne hne).symm.trans hget)
  rw [hwf.codeAt_of_others hothers, hwf'.codeAt_of_others hothers', hchanges.get_self, hsame]

/-! ### The log -/

def Covered (m : Maps) (x : Nat) : Prop :=
  ∃ entry ∈ m.codeWrites,
    entry.1 ≤ x ∧ x < entry.1 + entry.2 ∨ entry = codeWritesAll

theorem covered_congr (hlog : m'.codeWrites = m.codeWrites) : m'.Covered x ↔ m.Covered x := by
  rw [Covered, Covered, hlog]

theorem noteCodeWrite_eq (m : Maps) (addr len : Nat) :
    ∃ log, m.noteCodeWrite addr len = { m with codeWrites := log } := by
  rw [noteCodeWrite]
  split
  · exact ⟨m.codeWrites, rfl⟩
  · split
    · exact ⟨_, rfl⟩
    · exact ⟨_, rfl⟩

/-- No entry of the log is lost, unless to the entry that stands for all addresses. -/
def LogGrows (m m' : Maps) : Prop :=
  ∀ entry ∈ m.codeWrites, entry ∈ m'.codeWrites ∨ codeWritesAll ∈ m'.codeWrites

theorem LogGrows.of_eq (hlog : m'.codeWrites = m.codeWrites) : LogGrows m m' :=
  fun _ hentry => .inl (hlog ▸ hentry)

theorem LogGrows.trans (h₁ : LogGrows m m') (h₂ : LogGrows m' m'') : LogGrows m m'' := by
  intro entry hentry
  rcases h₁ entry hentry with hentry' | hall
  · exact h₂ entry hentry'
  · exact .inr ((h₂ _ hall).elim id id)

theorem LogGrows.covered (hgrows : LogGrows m m') (hx : m.Covered x) : m'.Covered x := by
  obtain ⟨entry, hentry, hx⟩ := hx
  rcases hgrows entry hentry with hentry' | hall
  · exact ⟨entry, hentry', hx⟩
  · exact ⟨codeWritesAll, hall, .inr rfl⟩

theorem LogGrows.nil (hgrows : LogGrows m m') (hempty : m'.codeWrites = []) :
    m.codeWrites = [] := by
  refine eq_nil_iff_forall_not_mem.mpr fun entry hentry => ?_
  rcases hgrows entry hentry with hentry' | hall
  · rw [hempty] at hentry'
    cases hentry'
  · rw [hempty] at hall
    cases hall

theorem LogGrows.noteCodeWrite (m : Maps) (addr len : Nat) :
    LogGrows m (m.noteCodeWrite addr len) := by
  intro entry hentry
  rw [Maps.noteCodeWrite]
  split
  · exact .inl hentry
  · split
    · exact .inr (mem_singleton_self _)
    · exact .inl (mem_append_left _ hentry)

theorem covered_noteCodeWrite {addr len : Nat} (hx : addr ≤ x ∧ x < addr + len) :
    (m.noteCodeWrite addr len).Covered x := by
  rw [noteCodeWrite]
  split
  · next hhead => exact ⟨codeWritesAll, mem_of_head? hhead, .inr rfl⟩
  · split
    · exact ⟨codeWritesAll, mem_singleton_self _, .inr rfl⟩
    · exact ⟨(addr, len), mem_append_right _ (mem_singleton_self _), .inl hx⟩

structure Logged (m m' : Maps) : Prop where
  covers : ∀ x, m'.codeAt x ≠ m.codeAt x → m'.Covered x
  grows : LogGrows m m'

theorem Logged.refl (m : Maps) : Logged m m :=
  ⟨fun _ hne => absurd rfl hne, .of_eq rfl⟩

theorem Logged.trans (h₁ : Logged m m') (h₂ : Logged m' m'') : Logged m m'' := by
  refine ⟨fun x hne => ?_, h₁.grows.trans h₂.grows⟩
  by_cases hlast : m''.codeAt x = m'.codeAt x
  · rw [hlast] at hne
    exact h₂.grows.covered (h₁.covers x hne)
  · exact h₂.covers x hlast

theorem Logged.codeAt_eq (hlogged : Logged m m') (hempty : m'.codeWrites = []) (x : Nat) :
    m'.codeAt x = m.codeAt x := by
  by_contra hne
  obtain ⟨entry, hentry, -⟩ := hlogged.covers x hne
  rw [hempty] at hentry
  cases hentry

theorem codeAt_congr (hslab : m'.memSlab = m.memSlab) (hmaps : m'.maps = m.maps) (x : Nat) :
    m'.codeAt x = m.codeAt x := by
  rw [codeAt, codeAt, searchMaps, searchMaps, hslab, hmaps]

theorem Logged.of_eq (hslab : m'.memSlab = m.memSlab) (hmaps : m'.maps = m.maps)
    (hlog : m'.codeWrites = m.codeWrites) : Logged m m' :=
  ⟨fun x hne => absurd (codeAt_congr hslab hmaps x) hne, .of_eq hlog⟩

theorem Logged.noteCodeWrite (m : Maps) (addr len : Nat) : Logged m (m.noteCodeWrite addr len) := by
  refine ⟨fun x hne => absurd ?_ hne, .noteCodeWrite m addr len⟩
  obtain ⟨log, hlog⟩ := m.noteCodeWrite_eq addr len
  rw [hlog]
  exact codeAt_congr rfl rfl x

theorem Changes.logged {new : Option Mem64} (hchanges : Changes m m' key new) (hwf : m.Wf)
    (hgrows : LogGrows m m') (hcovers : ∀ x,
      (new.bind fun r => r.codeAt x) ≠ ((m.memSlab.get key).bind fun r => r.codeAt x) →
        m'.Covered x) : Logged m m' := by
  refine ⟨fun x hne => hcovers x fun hsame => hne ?_, hgrows⟩
  exact hchanges.codeAt_eq hwf hsame

theorem Changes.logged_of_not_canExecute {r r' : Mem64} (hchanges : Changes m m' key (some r'))
    (hwf : m.Wf) (hget : m.memSlab.get key = some r) (hexec : r.canExecute = false)
    (hexec' : r'.canExecute = false) (hlog : m'.codeWrites = m.codeWrites) : Logged m m' := by
  refine hchanges.logged hwf (.of_eq hlog) fun x hne => absurd ?_ hne
  rw [hget, bind_some, bind_some, Mem64.codeAt_of_not_canExecute hexec,
    Mem64.codeAt_of_not_canExecute hexec']

end Maps

end Mwemu
