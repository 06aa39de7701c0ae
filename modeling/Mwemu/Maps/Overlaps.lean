import Mwemu.Maps.Alloc

/-!
# Asking whether a range is free

`overlaps` looks for a region that starts in the range. A region that starts before the range and
reaches into it is missed, and a range that reaches the end of the address space panics.
-/

namespace Mwemu

open Mwemu.Lib

namespace Maps

/-- `Maps::overlaps` in a build with overflow checks. (Without them the end wraps, and `range` panics
because it starts behind its end, unless nothing was ever mapped.) -/
def overlapsRange (m : Maps) (addr sz : Nat) : Option Bool :=
  if addr + sz < 2 ^ 64 then some (!(m.maps.range addr (addr + sz)).isEmpty) else none

structure PE64 where
  imageBase : Nat
  sizeOfImage : Nat
  hasRelocations : Bool

inductive DllBase where
  | imageBase
  | lib64 (found : Option Nat)
  deriving DecidableEq

def userMax : Nat := 0x7FFFFFFFFFFF

/-- The base is the preferred one, or what `lib64_alloc` finds. -/
def pickPe64DllBase (m : Maps) (pe64 : PE64) (rawLen : Nat) : Option DllBase :=
  let ib := pe64.imageBase
  let span := max pe64.sizeOfImage rawLen
  let found := DllBase.lib64 (m.lib64Alloc rawLen)
  if ib < 0x10000 ∨ pe64.hasRelocations then some found
  else if 2 ^ 64 ≤ ib + span then some found
  else if userMax < ib + span then some found
  else (m.overlapsRange ib span).map fun overlaps => if overlaps then found else .imageBase

/-- Some region has a byte in `[addr, addr + sz)`. -/
def Meets (m : Maps) (addr sz : Nat) : Prop :=
  ∃ key r, m.memSlab.get key = some r ∧ r.baseAddr < addr + sz ∧ addr < r.bottomAddr

def Starts (m : Maps) (addr sz : Nat) : Prop :=
  ∃ key r, m.memSlab.get key = some r ∧ addr ≤ r.baseAddr ∧ r.baseAddr < addr + sz

/-- A region that reaches into the range from before it has company that starts there. -/
def Announced (m : Maps) (addr sz : Nat) : Prop :=
  (∃ key r, m.memSlab.get key = some r ∧ r.baseAddr < addr ∧ addr < r.bottomAddr) →
    m.Starts addr sz

variable {m : Maps}

theorem Wf.overlapsRange_eq (hwf : m.Wf) {addr sz : Nat} {b : Bool} :
    m.overlapsRange addr sz = some b ↔ addr + sz < 2 ^ 64 ∧ (b = true ↔ m.Starts addr sz) := by
  have hstarts : m.maps.range addr (addr + sz) = [] ↔ ¬ m.Starts addr sz := by
    rw [List.eq_nil_iff_forall_not_mem]
    constructor
    · rintro hnone ⟨key, r, hget, hlow, hhigh⟩
      exact hnone (r.baseAddr, key)
        (OrdMap.mem_range.mpr ⟨(hwf.based _ _).mpr ⟨r, hget, rfl⟩, hlow, hhigh⟩)
    · rintro hnone ⟨base, key⟩ hmem
      obtain ⟨hin, hlow, hhigh⟩ := OrdMap.mem_range.mp hmem
      obtain ⟨r, hget, rfl⟩ := (hwf.based _ _).mp hin
      exact hnone ⟨key, r, hget, hlow, hhigh⟩
  rw [overlapsRange, Option.ite_none_right_eq_some, Option.some.injEq]
  refine and_congr_right fun _ => ?_
  rw [← not_iff_not (b := m.Starts addr sz), ← hstarts, ← List.isEmpty_iff]
  cases b <;> simp

theorem Meets.cases {addr sz : Nat} (hmeets : m.Meets addr sz) : m.Starts addr sz ∨ ∃ key r,
      m.memSlab.get key = some r ∧ r.baseAddr < addr ∧ addr < r.bottomAddr := by
  obtain ⟨key, r, hget, hlow, hhigh⟩ := hmeets
  rcases Nat.lt_or_ge r.baseAddr addr with hbefore | hafter
  · exact .inr ⟨key, r, hget, hbefore, hhigh⟩
  · exact .inl ⟨key, r, hget, hafter, hlow⟩

theorem Wf.pickPe64DllBase_eq (hwf : m.Wf) {pe64 : PE64} {rawLen : Nat} :
    m.pickPe64DllBase pe64 rawLen = some .imageBase ↔ 0x10000 ≤ pe64.imageBase ∧
      pe64.hasRelocations = false ∧ pe64.imageBase + max pe64.sizeOfImage rawLen ≤ userMax ∧
      ¬ m.Starts pe64.imageBase (max pe64.sizeOfImage rawLen) := by
  have huser : userMax < 2 ^ 64 := by decide
  simp only [pickPe64DllBase]
  generalize max pe64.sizeOfImage rawLen = span
  by_cases hfixed : pe64.imageBase < 0x10000 ∨ pe64.hasRelocations
  · rw [if_pos hfixed]
    grind
  rw [if_neg hfixed]
  by_cases hend : pe64.imageBase + span ≤ userMax
  · rw [if_neg (by omega), if_neg (by omega), Option.map_eq_some_iff]
    constructor
    · rintro ⟨b, hover, hbase⟩
      have hb := (hwf.overlapsRange_eq.mp hover).2
      grind
    · rintro ⟨-, -, -, hstarts⟩
      exact ⟨false, hwf.overlapsRange_eq.mpr ⟨by omega, by simp [hstarts]⟩, rfl⟩
  · grind

/-- The answer is right exactly if the range ends before the address space does and what reaches
into it is announced. A preferred base that is kept is free exactly if the same holds of the span,
where it is asked for. -/
theorem overlapsRange_exact_iff (hwf : m.Wf)
    (hnonempty : ∀ key r, m.memSlab.get key = some r → r.baseAddr < r.bottomAddr)
    (addr sz : Nat) (hsz : 0 < sz) :
    ((∃ b, m.overlapsRange addr sz = some b ∧ (b = true ↔ m.Meets addr sz)) ↔
      addr + sz < 2 ^ 64 ∧ m.Announced addr sz) ∧
    ∀ pe64 rawLen, 0 < max pe64.sizeOfImage rawLen →
      ((m.pickPe64DllBase pe64 rawLen = some .imageBase →
          ¬ m.Meets pe64.imageBase (max pe64.sizeOfImage rawLen)) ↔
        (0x10000 ≤ pe64.imageBase → pe64.hasRelocations = false →
          pe64.imageBase + max pe64.sizeOfImage rawLen ≤ userMax →
          m.Announced pe64.imageBase (max pe64.sizeOfImage rawLen))) := by
  refine ⟨⟨?_, ?_⟩, fun pe64 rawLen hspan => ⟨?_, ?_⟩⟩
  · rintro ⟨b, hover, hb⟩
    obtain ⟨hlt, hb'⟩ := hwf.overlapsRange_eq.mp hover
    refine ⟨hlt, ?_⟩
    rintro ⟨key, r, hget, hbefore, hreach⟩
    exact hb'.mp (hb.mpr ⟨key, r, hget, by omega, hreach⟩)
  · rintro ⟨hlt, hseen⟩
    classical
    refine ⟨decide (m.Starts addr sz), hwf.overlapsRange_eq.mpr ⟨hlt, decide_eq_true_iff⟩, ?_⟩
    rw [decide_eq_true_iff]
    constructor
    · rintro ⟨key, r, hget, hlow, hhigh⟩
      exact ⟨key, r, hget, hhigh, Nat.lt_of_le_of_lt hlow (hnonempty key r hget)⟩
    · exact fun hmeet => hmeet.cases.elim id hseen
  · rintro hfree hlow hfixed hend ⟨key, r, hget, hbefore, hreach⟩
    by_contra hstarts
    exact hfree (hwf.pickPe64DllBase_eq.mpr ⟨hlow, hfixed, hend, hstarts⟩)
      ⟨key, r, hget, by omega, hreach⟩
  · intro hseen hpick hmeet
    obtain ⟨hlow, hfixed, hend, hstarts⟩ := hwf.pickPe64DllBase_eq.mp hpick
    exact hstarts (hmeet.cases.elim id (hseen hlow hfixed hend))

def oneDll : List Op := [.createMap "dll" 0x10000 0x1000 readWrite]

/-- Of a store with one region: a range that it starts in, and an image behind it. -/
theorem overlapsRange_exact_oneDll : ∃ m, run Op.step default oneDll = some m ∧
      (∃ b, m.overlapsRange 0xF000 0x2000 = some b ∧ (b = true ↔ m.Meets 0xF000 0x2000)) ∧
      m.pickPe64DllBase ⟨0x20000, 0x1000, false⟩ 0x800 = some .imageBase ∧
      ¬ m.Meets 0x20000 0x1000 := by
  have hops : Along Op.step (fun m op => op.InRange m ∧ op.Admitted m) default oneDll := by
    decide +kernel
  have hreached : (run Op.step default oneDll).any (fun m =>
      (∀ e ∈ m.memSlab.entries, e.2.baseAddr = 0x10000 ∧ e.2.bottomAddr = 0x11000) ∧
        m.pickPe64DllBase ⟨0x20000, 0x1000, false⟩ 0x800 = some .imageBase) = true := by
    decide +kernel
  obtain ⟨m, hrun, hfound⟩ := (Option.any_eq_true _ _).mp hreached
  obtain ⟨hentries, hpick⟩ := of_decide_eq_true hfound
  have hone : ∀ key r, m.memSlab.get key = some r →
      r.baseAddr = 0x10000 ∧ r.bottomAddr = 0x11000 :=
    fun key r hget => hentries (key, r) (m.memSlab.mem_entries.mpr hget)
  obtain ⟨hexact, hkept⟩ := overlapsRange_exact_iff (wf_of_run hops hrun)
    (fun key r hget => by have := hone key r hget; omega) 0xF000 0x2000 (by decide)
  refine ⟨m, hrun, hexact.mpr ⟨by decide, ?_⟩, hpick,
    (hkept ⟨0x20000, 0x1000, false⟩ 0x800 (by decide)).mpr (fun _ _ _ => ?_) hpick⟩
  all_goals
    rintro ⟨key, r, hget, hbefore, hreach⟩
    have hends := hone key r hget
    simp only [hends] at hbefore hreach
    omega

/-- The middle of a region is taken to be free. -/
theorem overlapsRange_inside :
    let m := (default.createMap "dll" 0x10000 0x1000 Mem64.default.permission).1
    m.overlapsRange 0x10800 0x100 = some false ∧ m.Meets 0x10800 0x100 :=
  ⟨by decide +kernel, 0, _, rfl, by decide +kernel, by decide +kernel⟩

end Maps

end Mwemu
