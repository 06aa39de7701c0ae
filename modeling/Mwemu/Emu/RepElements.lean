import Mwemu.Emu.RepLoop

/-!
# The elements of STOS, MOVS and LODS

What one element of a counting instruction does in x64 mode, forward and without a memory-write
hook, when the whole range it works on lies in one region.
-/

namespace Mwemu

open Mwemu.Arch Option

namespace Emu

theorem acc_toNat (regs : Regs64) (width : Width) :
    (regs.acc width).toNat = regs.rax.toNat % 256 ^ width.bytes := by
  have hlt := regs.rax.isLt
  cases width with
  | byte => exact Nat.and_two_pow_sub_one_eq_mod regs.rax.toNat 8
  | word => exact Nat.and_two_pow_sub_one_eq_mod regs.rax.toNat 16
  | dword => exact Nat.and_two_pow_sub_one_eq_mod regs.rax.toNat 32
  | qword => exact (Nat.mod_eq_of_lt hlt).symm

/-- x64, forward, and nothing rewrites what is stored. -/
structure Forward (e : Emu) : Prop where
  x64 : e.cfg.isX64 = true
  df : e.flags.fDf = false
  unhooked : e.hooks.hookOnMemoryWrite = none

namespace Forward

variable {e : Emu} (hforward : e.Forward) (width : Width)
include hforward

theorem wide_eq : e.wide width = true := by
  rw [wide, hforward.x64, Bool.true_or]

theorem di_eq : e.di width = e.regs.rdi := if_pos (hforward.wide_eq width)

theorem si_eq : e.si width = e.regs.rsi := if_pos (hforward.wide_eq width)

theorem stepDi_eq : e.stepDi width =
    { e with regs := { e.regs with rdi := e.regs.rdi + BitVec.ofNat 64 width.bytes } } := by
  simp [stepDi, stepIndex, hforward.wide_eq, hforward.di_eq, hforward.df]

theorem stepSi_eq : e.stepSi width =
    { e with regs := { e.regs with rsi := e.regs.rsi + BitVec.ofNat 64 width.bytes } } := by
  simp [stepSi, stepIndex, hforward.wide_eq, hforward.si_eq, hforward.df]

theorem write_eq (addr : BitVec 64) (value : Nat) : e.write width addr value =
    (e.maps.writeScalar width.bytes addr.toNat value).map fun out =>
      (out.1, { e with maps := out.2 }) := by
  rw [write, callMemoryWriteHook, hforward.unhooked]

/-! ### One element of each instruction -/

theorem at_element (maps : Maps) (regs : Regs64) (rep : Option (BitVec 64)) (pos count : BitVec 64) :
    Forward { e with
      maps := maps, regs := regs, rep := rep, pos := pos, instructionCount := count } :=
  ⟨hforward.x64, hforward.df, hforward.unhooked⟩

theorem with_maps (maps : Maps) : Forward { e with maps := maps } :=
  hforward.at_element maps _ _ _ _

theorem with_regs (regs : Regs64) : Forward { e with regs := regs } :=
  hforward.at_element _ regs _ _ _

theorem with_flags {flags : Flags} (hdf : flags.fDf = false) : Forward { e with flags := flags } :=
  ⟨hforward.x64, hdf, hforward.unhooked⟩

variable {width} {ins : Instruction} (hoperand : ins.hasStringOperand = true)
include hoperand

variable {maps : Maps}

theorem emulate_stos (hmnemonic : ins.mnemonic = .string .stos width)
    (hwrite : e.maps.writeScalar width.bytes e.regs.rdi.toNat (e.regs.acc width).toNat =
      some (true, maps)) : e.emulateInstruction ins = some (true, { e with
      maps := maps
      regs := { e.regs with rdi := e.regs.rdi + BitVec.ofNat 64 width.bytes } }) := by
  obtain ⟨checked, hstos⟩ : ∃ checked, e.emulateInstruction ins = e.stos width checked := by
    rw [emulateInstruction, if_pos hoperand, hmnemonic]
    cases width with
    | byte => exact ⟨true, rfl⟩
    | word => exact ⟨false, rfl⟩
    | dword => exact ⟨true, rfl⟩
    | qword => exact ⟨false, rfl⟩
  rw [hstos, stos, hforward.write_eq, hforward.di_eq, hwrite, map_some]
  simp [(hforward.with_maps maps).stepDi_eq]

variable {value : Nat}

theorem emulate_movs (hmnemonic : ins.mnemonic = .string .movs width) {maps' : Maps}
    (hread : e.maps.readScalar width.bytes e.regs.rsi.toNat = (some value, maps))
    (hwrite : maps.writeScalar width.bytes e.regs.rdi.toNat value = some (true, maps')) :
    e.emulateInstruction ins = some (true, { e with
      maps := maps'
      regs := { e.regs with
        rsi := e.regs.rsi + BitVec.ofNat 64 width.bytes
        rdi := e.regs.rdi + BitVec.ofNat 64 width.bytes }
      pos := e.pos + (stride ins - 1) }) := by
  have hmovs : e.emulateInstruction ins = some (true,
      (stepSi { e with maps := maps', pos := e.pos + (stride ins - 1) } width).stepDi width) := by
    -- stated for every position, which MOVSQ has already moved
    have hword : ∀ pos, movs { e with pos := pos } width =
        some (true, (stepSi { e with maps := maps', pos := pos } width).stepDi width) := by
      intro pos
      have hpos : Forward { e with pos := pos } := hforward.at_element _ _ _ pos _
      simp only [movs, read, hpos.si_eq, hread, (hpos.with_maps maps).write_eq,
        (hpos.with_maps maps).di_eq, hwrite, map_some, bind_eq_bind, bind_some]
    rw [emulateInstruction, if_pos hoperand, hmnemonic, stride, hmnemonic]
    cases width with
    | byte =>
      simp only [movsb, copyByte, read, hforward.si_eq, hread, (hforward.with_maps maps).write_eq,
        (hforward.with_maps maps).di_eq, hwrite, map_some, bind_eq_bind, bind_some, if_true]
      simp
    | word => exact (hword e.pos).trans (by simp)
    | dword => exact (hword e.pos).trans (by simp)
    | qword => exact (hword (e.pos + 1)).trans (by simp)
  have hpos := hforward.at_element maps' e.regs e.rep (e.pos + (stride ins - 1)) e.instructionCount
  rw [hmovs, hpos.stepSi_eq, (hpos.with_regs _).stepDi_eq]

theorem emulate_lods (hmnemonic : ins.mnemonic = .string .lods width)
    (hread : e.maps.readScalar width.bytes e.regs.rsi.toNat = (some value, maps)) :
    e.emulateInstruction ins = some (true, { e with
      maps := maps
      regs := { e.regs.setAcc width (BitVec.ofNat 64 value) with
        rsi := e.regs.rsi + BitVec.ofNat 64 width.bytes } }) := by
  have hload : e.emulateInstruction ins = some (true, load { e with maps := maps } width value) := by
    have hlods : some (e.lods width) = some (true, load { e with maps := maps } width value) := by
      simp only [lods, read, hforward.si_eq, hread]
    rw [emulateInstruction, if_pos hoperand, hmnemonic]
    cases width with
    | byte => simp only [lodsb, read, hforward.si_eq, hread]
    | word => exact hlods
    | dword => exact hlods
    | qword =>
      rw [← hlods]
      simp only [lodsq, hforward.x64, if_true]
  rw [hload, load, ((hforward.with_maps maps).with_regs _).stepSi_eq]
  cases width <;> rfl

theorem emulate_scas (hmnemonic : ins.mnemonic = .string .scas width)
    (hread : e.maps.readScalar width.bytes e.regs.rdi.toNat = (some value, maps)) :
    e.emulateInstruction ins = some (true, { e with
      maps := maps
      flags := (e.flags.subWidth width (e.regs.acc width).toNat value).2
      regs := { e.regs with rdi := e.regs.rdi + BitVec.ofNat 64 width.bytes } }) := by
  have hdf : (e.flags.subWidth width (e.regs.acc width).toNat value).2.fDf = false := by
    rw [← hforward.df]
    cases width <;> rfl
  have hscas : e.emulateInstruction ins = some (e.scas width e.regs.rdi) := by
    rw [emulateInstruction, if_pos hoperand, hmnemonic]
    cases width with
    | byte => rfl
    | word => rw [scasw, hforward.di_eq]
    | dword => rw [scasd, hforward.di_eq]
    | qword => rw [scasq, if_pos hforward.x64]
  rw [hscas]
  simp only [scas, read, hread]
  rw [((hforward.with_maps maps).with_flags hdf).stepDi_eq]

end Forward

end Emu

end Mwemu
