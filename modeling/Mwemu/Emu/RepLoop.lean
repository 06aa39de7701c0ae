import Mwemu.Arch.FlagsArith
import Mwemu.Emu.Rep
import Mwemu.Maps.Region

/-!
# The run loop over a REP instruction

A rule for the loop: if the state after `k` elements meets an invariant and every pass either keeps
it or ends the loop, the loop ends. For STOS, MOVS and LODS, which only count, the rule is used once:
what remains to be said of such an instruction is what one element does.
-/

namespace Mwemu

open Mwemu.Arch BitVec

namespace Emu

variable {ins : Instruction} {size : Nat}

variable {e : Emu}

theorem repLoop_of_invariant (ins : Instruction) (size : Nat) {n : Nat} (inv : Nat → Emu → Prop)
    (post : Emu → Prop) (hpass : ∀ k e, k < n → inv k e →
      (∃ e', e.repPass ins size = some (.again e') ∧ k + 1 < n ∧ inv (k + 1) e') ∨
      ∃ e', e.repPass ins size = some (.done e') ∧ post e') (hn : 0 < n) (hinv : inv 0 e) :
    ∃ e', repLoop ins size n e = some e' ∧ post e' := by
  have hfrom : ∀ left k e, k + left = n → 0 < left → inv k e →
      ∃ e', repLoop ins size left e = some e' ∧ post e' := by
    intro left
    induction left with
    | zero => intro k e _ hpos _; exact absurd hpos (Nat.lt_irrefl 0)
    | succ left ih =>
      intro k e hk _ hinv
      rcases hpass k e (by omega) hinv with ⟨e', heq, hlt, hinv'⟩ | ⟨e', heq, hpost⟩
      · obtain ⟨e'', hloop, hpost⟩ := ih (k + 1) e' (by omega) (by omega) hinv'
        exact ⟨e'', by rw [repLoop, heq]; exact hloop, hpost⟩
      · exact ⟨e', by rw [repLoop, heq], hpost⟩
  exact hfrom n 0 e (by omega) hn hinv

def started (e : Emu) : Emu :=
  { e with
    pos := e.pos + 1
    instructionCount := e.instructionCount + 1
    rep := some (e.rep.getD 0) }

theorem repPass_eq (hins : ins.isRepStringInstruction = true) (hrcx : e.regs.rcx ≠ 0) :
    e.repPass ins size = (e.started.emulateInstruction ins).map fun (emulationOk, e) =>
      let e := e.updateX86RepStateAfterExecution ins
      if !emulationOk then .failed e
      else if e.rep.isNone then .done (e.advancePcX86 size)
      else .again e := by
  have hpre : handleX86RepPreExecution
      { e with pos := e.pos + 1, instructionCount := e.instructionCount + 1 } ins size =
      (false, e.started) := by
    have hne : ¬ e.regs.rcx = 0#64 := hrcx
    rw [handleX86RepPreExecution, if_pos hins]
    cases hrep : e.rep with
    | none => simp [hrep, hne, started]
    | some c => simp [hrep, hne, started]
  rw [repPass, hpre]

/-! ### Counting instructions -/

/-- The instruction positions an element takes: MOVSQ counts one more than the run loop does. -/
def stride (ins : Instruction) : BitVec 64 :=
  if ins.mnemonic = .string .movs .qword then 2 else 1

/-- STOS, MOVS and LODS stop on `rcx` alone. -/
def Counting (ins : Instruction) : Prop :=
  ∃ width, ins.mnemonic = .string .stos width ∨ ins.mnemonic = .string .movs width ∨
    ins.mnemonic = .string .lods width

/-- The state `k` elements after `e`, with the memory and registers they leave. -/
def after (e : Emu) (ins : Instruction) (k : Nat) (maps : Maps) (regs : Regs64)
    (rep : Option (BitVec 64)) : Emu :=
  { e with
    maps := maps
    regs := { regs with rcx := e.regs.rcx - BitVec.ofNat 64 k }
    rep := rep
    pos := e.pos + BitVec.ofNat 64 k * stride ins
    instructionCount := e.instructionCount + BitVec.ofNat 64 k }

theorem update_of_counting (hcount : Counting ins) {c : BitVec 64} (hrep : e.rep = some c) :
    e.updateX86RepStateAfterExecution ins = e.countRep c := by
  obtain ⟨width, hmn | hmn | hmn⟩ := hcount <;>
    simp only [updateX86RepStateAfterExecution, hrep, hmn]

theorem repPass_of_element (hins : ins.isRepStringInstruction = true) (hcount : Counting ins)
    {e' : Emu} (hrcx : e.regs.rcx ≠ 0) {c : BitVec 64}
    (helement : e.started.emulateInstruction ins = some (true, e')) (hrep : e'.rep = some c) :
    e.repPass ins size = some (if (e'.countRep c).rep.isNone then
      .done ((e'.countRep c).advancePcX86 size) else .again (e'.countRep c)) := by
  rw [repPass_eq hins hrcx, helement, Option.map_some]
  simp only [update_of_counting hcount hrep]
  rfl

/-- One element of a counting instruction takes memory `M k` and registers `R k` to `M (k + 1)` and
`R (k + 1)`, whatever the counters and the lookup buffer. -/
def Element (e : Emu) (ins : Instruction) (M : Nat → Maps) (R : Nat → Regs64) (k : Nat) : Prop :=
  ∀ tlb rcx rep pos count, ∃ tlb',
    emulateInstruction { e with
      maps := { M k with tlb := tlb }, regs := { R k with rcx := rcx }, rep := some rep,
      pos := pos, instructionCount := count } ins =
    some (true, { e with
      maps := { M (k + 1) with tlb := tlb' }, regs := { R (k + 1) with rcx := rcx }
      rep := some rep, pos := pos + (stride ins - 1), instructionCount := count })

variable {k : Nat}

theorem toNat_sub_ofNat {x : BitVec 64} (hk : k ≤ x.toNat) :
    (x - BitVec.ofNat 64 k).toNat = x.toNat - k := by
  have hlt : k < 2 ^ 64 := Nat.lt_of_le_of_lt hk x.isLt
  have hofNat : (BitVec.ofNat 64 k).toNat = k := by rw [toNat_ofNat, Nat.mod_eq_of_lt hlt]
  rw [toNat_sub_of_le (le_def.mpr (by rw [hofNat]; exact hk)), hofNat]

theorem ofNat_succ (k : Nat) : BitVec.ofNat 64 (k + 1) = BitVec.ofNat 64 k + 1 :=
  ofNat_add k 1

theorem sub_ofNat_succ (x : BitVec 64) (k : Nat) :
    x - BitVec.ofNat 64 k - 1 = x - BitVec.ofNat 64 (k + 1) := by
  rw [ofNat_succ]
  ring

theorem add_ofNat_succ (x : BitVec 64) (k : Nat) :
    x + BitVec.ofNat 64 k + 1 = x + BitVec.ofNat 64 (k + 1) := by
  rw [ofNat_succ, add_assoc]

theorem sub_ofNat_eq_zero {x : BitVec 64} (hk : k ≤ x.toNat) :
    x - BitVec.ofNat 64 k = 0 ↔ k = x.toNat := by
  rw [← toNat_inj, toNat_sub_ofNat hk, show (0 : BitVec 64).toNat = 0 from rfl]
  omega

theorem repPass_counting (size : Nat) {M : Nat → Maps} {R : Nat → Regs64}
    (hins : ins.isRepStringInstruction = true) (hcount : Counting ins) (hk : k < e.regs.rcx.toNat)
    (helement : e.Element ins M R k) (tlb : Tlb) (rep : Option (BitVec 64)) :
    ∃ tlb' rep', (e.after ins k { M k with tlb := tlb } (R k) rep).repPass ins size =
      some (if k + 1 = e.regs.rcx.toNat then
        .done ((e.after ins (k + 1) { M (k + 1) with tlb := tlb' } (R (k + 1)) none).advancePcX86
          size)
      else .again (e.after ins (k + 1) { M (k + 1) with tlb := tlb' } (R (k + 1)) rep')) := by
  have hpos : e.pos + BitVec.ofNat 64 k * stride ins + 1 + (stride ins - 1) =
      e.pos + BitVec.ofNat 64 (k + 1) * stride ins := by
    rw [ofNat_succ]
    ring
  have hne : e.regs.rcx - BitVec.ofNat 64 k ≠ 0 :=
    mt (sub_ofNat_eq_zero (Nat.le_of_lt hk)).mp (Nat.ne_of_lt hk)
  obtain ⟨tlb', hstep⟩ := helement tlb (e.regs.rcx - BitVec.ofNat 64 k) (rep.getD 0)
    (e.pos + BitVec.ofNat 64 k * stride ins + 1) (e.instructionCount + BitVec.ofNat 64 k + 1)
  refine ⟨tlb', some (rep.getD 0 + 1), ?_⟩
  have hstarted : (e.after ins k { M k with tlb := tlb } (R k) rep).started.emulateInstruction ins =
      _ := hstep
  rw [repPass_of_element hins hcount hne hstarted rfl, countRep, if_neg hne]
  simp only [sub_ofNat_succ, add_ofNat_succ, hpos]
  by_cases hdone : k + 1 = e.regs.rcx.toNat
  · rw [if_pos hdone, if_pos ((sub_ofNat_eq_zero hk).mpr hdone)]
    rfl
  · rw [if_neg hdone, if_neg (mt (sub_ofNat_eq_zero hk).mp hdone)]
    rfl

theorem repLoop_counting (size : Nat) {M : Nat → Maps} {R : Nat → Regs64}
    (hins : ins.isRepStringInstruction = true) (hcount : Counting ins)
    (hrcx : 0 < e.regs.rcx.toNat) (hmaps : M 0 = e.maps) (hregs : R 0 = e.regs)
    (helement : ∀ k, k < e.regs.rcx.toNat → e.Element ins M R k) :
    ∃ tlb, repLoop ins size e.regs.rcx.toNat e =
      some ((e.after ins e.regs.rcx.toNat { M e.regs.rcx.toNat with tlb := tlb }
        (R e.regs.rcx.toNat) none).advancePcX86 size) := by
  have hstart : e = e.after ins 0 { M 0 with tlb := e.maps.tlb } (R 0) e.rep := by
    rw [after, hmaps, hregs]
    simp
  obtain ⟨_, hloop, tlb, rfl⟩ := repLoop_of_invariant ins size
    (fun k s => ∃ tlb rep, s = e.after ins k { M k with tlb := tlb } (R k) rep)
    (fun s => ∃ tlb, s = (e.after ins e.regs.rcx.toNat { M e.regs.rcx.toNat with tlb := tlb }
        (R e.regs.rcx.toNat) none).advancePcX86 size)
    (fun k s hk hinv => by
      obtain ⟨tlb, rep, rfl⟩ := hinv
      obtain ⟨tlb', rep', hpass⟩ := repPass_counting size hins hcount hk (helement k hk) tlb rep
      by_cases hdone : k + 1 = e.regs.rcx.toNat
      · rw [if_pos hdone] at hpass
        exact .inr ⟨_, hpass, tlb', by rw [hdone]⟩
      · rw [if_neg hdone] at hpass
        exact .inl ⟨_, hpass, by omega, tlb', rep', rfl⟩)
    hrcx ⟨e.maps.tlb, e.rep, hstart⟩
  exact ⟨tlb, hloop⟩

end Emu

end Mwemu
