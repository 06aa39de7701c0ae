import Mwemu.Emu.RepRefine

/-!
# Where a failing REP instruction stops

The two loops over a REP instruction, the run loop and `execute_x86_rep_fully` of the single-step
path, take the same turns: one element, then the state machine that counts `rcx` down. The count
does not ask whether the element succeeded. So the registers a failure leaves are off by one: the
index registers stand at the element that failed, `rcx` behind it.
-/

namespace Mwemu

open Mwemu.Arch Option BitVec

def StringOp.usesSi : StringOp → Bool
  | .movs | .lods | .cmps => true
  | .stos | .scas => false

def StringOp.usesDi : StringOp → Bool
  | .movs | .stos | .cmps | .scas => true
  | .lods => false

namespace Emu

/-! ### The loop of the single-step path -/

def fullPass (ins : Instruction) (e : Emu) : Option Pass :=
  if e.regs.rcx = 0 then some (.done e)
  else
    (e.emulateInstruction ins).map fun (ok, e) =>
      let e := e.updateX86RepStateAfterExecution ins
      if !ok then .failed e else if e.rep.isNone then .done e else .again e

/-- The turns until one leaves the loop, with the result of the last element; `none` if one panics
or the fuel runs out. -/
def fullLoop (ins : Instruction) : Nat → Emu → Option (Bool × Emu)
  | 0, _ => none
  | fuel + 1, e =>
    (e.fullPass ins).bind fun
      | .done e => some (true, e)
      | .failed e => some (false, e)
      | .again e => fullLoop ins fuel e

def executeX86RepFully (e : Emu) (ins : Instruction) (fuel : Nat) : Option (Bool × Emu) :=
  (fullLoop ins fuel { e with rep := some 0 }).map fun (ok, e) => (ok, { e with rep := none })

/-! ### Faults -/

/-- The accesses of the next element succeed: the reads, and the write of what they give. -/
def accessesSucceed (ins : Instruction) (e : Emu) : Bool :=
  match ins.mnemonic with
  | .string .stos width => (e.write width (e.di width) (e.regs.acc width).toNat).any Prod.fst
  | .string .movs width =>
    match e.read width (e.si width) with
    | (none, _) => false
    | (some value, e) => (e.write width (e.di width) value).any Prod.fst
  | .string .scas width => (e.read width (e.di width)).1.isSome
  | .string .lods width => (e.read width (e.si width)).1.isSome
  | .string .cmps width =>
    match e.read width (e.si width) with
    | (none, _) => false
    | (some _, e) => (e.read width (e.di width)).1.isSome
  | .other => false

def stateAt (pass : Emu → Option Pass) (e : Emu) : Nat → Option Emu
  | 0 => some e
  | k + 1 =>
    (stateAt pass e k).bind fun s =>
      match pass s with
      | some (.again s') => some s'
      | _ => none

/-- Element `i` is the first one an access of which fails, and no earlier one ends the loop. -/
def FirstFault (pass : Emu → Option Pass) (ins : Instruction) (e : Emu) (i : Nat) : Prop :=
  (stateAt pass e i).any (fun s => !accessesSucceed ins s) = true ∧
    ∀ k < i, (stateAt pass e k).any (accessesSucceed ins) = true

/-- The loop stops with a failure in the turn of element `j`, in state `e'`. -/
def FailsAt (pass : Emu → Option Pass) (e : Emu) (j : Nat) (e' : Emu) : Prop :=
  (stateAt pass e j).bind pass = some (.failed e')

def moved (used df : Bool) (width : Width) (k : Nat) (index : BitVec 64) : BitVec 64 :=
  if used then
    if df then index - BitVec.ofNat 64 (k * width.bytes)
    else index + BitVec.ofNat 64 (k * width.bytes)
  else index

/-- What a precise fault at element `i` of an instruction started in `e` leaves: the count and the
index registers of that element, and the memory, accumulator and flags of the state before it. -/
structure Precise (pass : Emu → Option Pass) (op : StringOp) (width : Width) (e : Emu) (i : Nat)
    (e' : Emu) : Prop where
  rcx : e'.regs.rcx = e.regs.rcx - BitVec.ofNat 64 i
  rsi : e'.regs.rsi = moved op.usesSi e.flags.fDf width i e.regs.rsi
  rdi : e'.regs.rdi = moved op.usesDi e.flags.fDf width i e.regs.rdi
  effect : ∃ s, stateAt pass e i = some s ∧ e'.maps = { s.maps with tlb := e'.maps.tlb } ∧
    e'.regs.rax = s.regs.rax ∧ e'.flags.SameArith s.flags

/-! ### One element -/

/-- What a handler does to everything but the memory, the accumulator and the arithmetic flags. -/
structure Moves (op : StringOp) (width : Width) (ok : Bool) (e e' : Emu) : Prop where
  cfg : e'.cfg = e.cfg
  rep : e'.rep = e.rep
  df : e'.flags.fDf = e.flags.fDf
  rcx : e'.regs.rcx = e.regs.rcx
  rsi : e'.regs.rsi = if ok && op.usesSi then e.stepIndex width e.regs.rsi else e.regs.rsi
  rdi : e'.regs.rdi = if ok && op.usesDi then e.stepIndex width e.regs.rdi else e.regs.rdi

theorem read_eq (e : Emu) (width : Width) (addr : BitVec 64) : ∃ value maps,
    e.read width addr = (value, { e with maps := maps }) :=
  ⟨_, _, rfl⟩

variable {e e' : Emu} {width : Width}

theorem write_cases {addr : BitVec 64} {value : Nat} {ok : Bool}
    (hwrite : e.write width addr value = some (ok, e')) : ∃ maps, e' = { e with maps := maps } := by
  obtain ⟨⟨_, maps⟩, _, heq⟩ := map_eq_some_iff.mp hwrite
  exact ⟨maps, (congrArg Prod.snd heq).symm⟩

theorem fDf_subWidth (f : Flags) (width : Width) (a b : Nat) :
    (f.subWidth width a b).2.fDf = f.fDf := by
  cases width <;> rfl

theorem stepDi_x64 (hx64 : e.cfg.isX64 = true) : e.stepDi width =
    { e with regs := { e.regs with rdi := e.stepIndex width e.regs.rdi } } := by
  simp [stepDi, di, wide, hx64]

theorem stepSi_x64 (hx64 : e.cfg.isX64 = true) : e.stepSi width =
    { e with regs := { e.regs with rsi := e.stepIndex width e.regs.rsi } } := by
  simp [stepSi, si, wide, hx64]

theorem Moves.failed (op : StringOp) (width : Width) (e : Emu) (maps : Maps) :
    Moves op width false e { e with maps := maps } :=
  ⟨rfl, rfl, rfl, rfl, rfl, rfl⟩

section Handlers

variable {e e' : Emu} {width : Width} {ok : Bool} (hx64 : e.cfg.isX64 = true)
include hx64

theorem moves_stos {checked : Bool} (hstos : e.stos width checked = some (ok, e')) :
    Moves .stos width ok e e' := by
  obtain ⟨⟨written, s⟩, hwrite, hrest⟩ := bind_eq_some_iff.mp hstos
  obtain ⟨maps, rfl⟩ := write_cases hwrite
  by_cases hfail : (checked && !written) = true
  · cases (if_pos hfail).symm.trans hrest
    exact Moves.failed .stos width e maps
  · cases (if_neg hfail).symm.trans hrest
    rw [stepDi_x64]
    · exact ⟨rfl, rfl, rfl, rfl, rfl, rfl⟩
    · exact hx64

theorem moves_stepBoth (maps : Maps) :
    Moves .movs width true e ((stepSi { e with maps := maps } width).stepDi width) := by
  rw [stepSi_x64, stepDi_x64]
  · exact ⟨rfl, rfl, rfl, rfl, rfl, rfl⟩
  · exact hx64
  · exact hx64

theorem moves_movs (hmovs : e.movs width = some (ok, e')) : Moves .movs width ok e e' := by
  obtain ⟨value, maps, hread⟩ := e.read_eq width (e.si width)
  rw [movs, hread] at hmovs
  cases value with
  | none =>
    cases hmovs
    exact Moves.failed .movs width e maps
  | some value =>
    obtain ⟨⟨written, s⟩, hwrite, hrest⟩ := bind_eq_some_iff.mp hmovs
    obtain ⟨maps', rfl⟩ := write_cases hwrite
    cases hrest
    exact moves_stepBoth hx64 maps'

theorem moves_copyByte {value : Nat} {maps : Maps}
    (hcopy : ({ e with maps := maps } : Emu).copyByte value = some (ok, e')) :
    Moves .movs .byte ok e e' := by
  obtain ⟨⟨written, s⟩, hwrite, hrest⟩ := bind_eq_some_iff.mp hcopy
  obtain ⟨maps', rfl⟩ := write_cases hwrite
  cases written with
  | false =>
    cases hrest
    exact Moves.failed .movs .byte e maps'
  | true =>
    cases hrest
    exact moves_stepBoth hx64 maps'

theorem moves_movsb (hmovs : e.movsb = some (ok, e')) : Moves .movs .byte ok e e' := by
  obtain ⟨value, maps, hread⟩ := e.read_eq .byte (e.si .byte)
  rw [movsb, hread] at hmovs
  cases value with
  | some value => exact moves_copyByte hx64 hmovs
  | none =>
    by_cases hrep : e.rep.isSome = true
    · exact moves_copyByte hx64 ((if_pos hrep).symm.trans hmovs)
    · cases (if_neg hrep).symm.trans hmovs
      exact Moves.failed .movs .byte e maps

theorem moves_scas {addr : BitVec 64} (hscas : e.scas width addr = (ok, e')) :
    Moves .scas width ok e e' := by
  obtain ⟨value, maps, hread⟩ := e.read_eq width addr
  rw [scas, hread] at hscas
  cases value with
  | none =>
    cases hscas
    exact Moves.failed .scas width e maps
  | some value =>
    cases hscas
    rw [stepDi_x64]
    · exact ⟨rfl, rfl, fDf_subWidth _ _ _ _, rfl, rfl, by
        simp [StringOp.usesDi, stepIndex, fDf_subWidth]⟩
    · exact hx64

theorem moves_load (maps : Maps) (value : Nat) :
    Moves .lods width true e (({ e with maps := maps } : Emu).load width value) := by
  rw [load, stepSi_x64]
  · cases width <;> exact ⟨rfl, rfl, rfl, rfl, rfl, rfl⟩
  · exact hx64

theorem moves_lods (hlods : e.lods width = (ok, e')) : Moves .lods width ok e e' := by
  obtain ⟨value, maps, hread⟩ := e.read_eq width (e.si width)
  rw [lods, hread] at hlods
  cases value with
  | none =>
    cases hlods
    exact Moves.failed .lods width e maps
  | some value =>
    cases hlods
    exact moves_load hx64 maps value

theorem moves_lodsb (hlods : e.lodsb = (ok, e')) : Moves .lods .byte ok e e' := by
  obtain ⟨value, maps, hread⟩ := e.read_eq .byte (e.si .byte)
  rw [lodsb, hread] at hlods
  cases value <;>
  · cases hlods
    exact moves_load hx64 maps _

theorem moves_cmps (hcmps : e.cmps width = (ok, e')) : Moves .cmps width ok e e' := by
  obtain ⟨value0, maps, hread0⟩ := e.read_eq width (e.si width)
  rw [cmps, hread0] at hcmps
  cases value0 with
  | none =>
    cases hcmps
    exact Moves.failed .cmps width e maps
  | some value0 =>
    obtain ⟨value1, maps', hread1⟩ := read_eq { e with maps := maps } width (e.di width)
    have hdi : di { e with maps := maps } width = e.di width := rfl
    simp only [hdi, hread1] at hcmps
    cases value1 with
    | none =>
      cases hcmps
      exact Moves.failed .cmps width e maps'
    | some value1 =>
      cases hcmps
      rw [stepSi_x64, stepDi_x64]
      · exact ⟨rfl, rfl, fDf_subWidth _ _ _ _, rfl, rfl, rfl⟩
      · exact hx64
      · exact hx64

/-- Every handler moves the index registers of its operands by one element if it succeeds and by
none if it fails, and no handler touches `rcx`. -/
theorem moves_emulateInstruction {ins : Instruction} {op : StringOp}
    (hmnemonic : ins.mnemonic = .string op width)
    (hemulate : e.emulateInstruction ins = some (ok, e')) : Moves op width ok e e' := by
  have hoperand : ins.hasStringOperand = true := by
    by_contra hoperand
    rw [emulateInstruction, if_neg hoperand] at hemulate
    cases hemulate
  rw [emulateInstruction, if_pos hoperand, hmnemonic] at hemulate
  cases op with
  | stos => cases width <;> exact moves_stos hx64 hemulate
  | movs =>
    cases width with
    | byte => exact moves_movsb hx64 hemulate
    | word => exact moves_movs hx64 hemulate
    | dword => exact moves_movs hx64 hemulate
    | qword =>
      have hmoves := moves_movs (e := { e with pos := e.pos + 1 }) hx64 hemulate
      exact ⟨hmoves.cfg, hmoves.rep, hmoves.df, hmoves.rcx, hmoves.rsi, hmoves.rdi⟩
  | scas => cases width <;> exact moves_scas hx64 (Option.some.inj hemulate)
  | lods =>
    cases width with
    | byte => exact moves_lodsb hx64 (Option.some.inj hemulate)
    | word => exact moves_lods hx64 (Option.some.inj hemulate)
    | dword => exact moves_lods hx64 (Option.some.inj hemulate)
    | qword => exact moves_lods hx64 ((if_pos hx64).symm.trans (Option.some.inj hemulate))
  | cmps => cases width <;> exact moves_cmps hx64 (Option.some.inj hemulate)

end Handlers

/-! ### One turn -/

/-- `e'` is `e` with `rcx` counted down, and goes on only if the count is not zero. -/
def Counted (e e' : Emu) : Prop :=
  ∃ rep, e' = { e with regs := { e.regs with rcx := e.regs.rcx - 1 }, rep := rep } ∧
    (rep.isSome = true → e.regs.rcx - 1 ≠ 0)

theorem Counted.cleared (hcounted : Counted e e') : Counted e { e' with rep := none } := by
  obtain ⟨rep, rfl, -⟩ := hcounted
  exact ⟨none, rfl, nofun⟩

theorem Counted.clearedIf (hcounted : Counted e e') (c : Bool) :
    Counted e (if c then { e' with rep := none } else e') := by
  cases c with
  | false => exact hcounted
  | true => exact hcounted.cleared

theorem counted_countRep (hrcx : e.regs.rcx ≠ 0) (c : BitVec 64) : Counted e (e.countRep c) := by
  rw [countRep, if_neg hrcx]
  refine ⟨_, rfl, fun hsome hzero => ?_⟩
  rw [if_pos hzero] at hsome
  cases hsome

theorem counted_update (ins : Instruction) (hrep : e.rep.isSome = true) (hrcx : e.regs.rcx ≠ 0) :
    Counted e (e.updateX86RepStateAfterExecution ins) := by
  obtain ⟨c, hc⟩ := isSome_iff_exists.mp hrep
  have hcount := counted_countRep hrcx c
  simp only [updateX86RepStateAfterExecution, hc]
  cases ins.mnemonic with
  | other => exact hcount.cleared
  | string op width =>
    cases op with
    | movs | stos | lods => exact hcount
    | cmps | scas =>
      -- REPE and REPNE can each end the loop on ZF
      exact (hcount.clearedIf _).clearedIf _

/-- What a turn does to the count and the index registers. -/
structure Turn (op : StringOp) (width : Width) (ok : Bool) (e e' : Emu) : Prop where
  cfg : e'.cfg = e.cfg
  df : e'.flags.fDf = e.flags.fDf
  rcx : e'.regs.rcx = e.regs.rcx - 1
  rsi : e'.regs.rsi = if ok && op.usesSi then e.stepIndex width e.regs.rsi else e.regs.rsi
  rdi : e'.regs.rdi = if ok && op.usesDi then e.stepIndex width e.regs.rdi else e.regs.rdi

/-- A loop whose turns are those of the state machine, in the states `ready` describes. -/
structure Turns (op : StringOp) (width : Width) (pass : Emu → Option Pass) (ready : Emu → Prop) :
    Prop where
  again : ∀ s s', ready s → pass s = some (.again s') →
    Turn op width true s s' ∧ s'.regs.rcx ≠ 0 ∧ ready s'
  failed : ∀ s s', ready s → pass s = some (.failed s') → Turn op width false s s'

/-- Between two turns of the run loop. -/
def Ready (e : Emu) : Prop := e.cfg.isX64 = true ∧ e.regs.rcx ≠ 0

section Turns

variable {ins : Instruction} {op : StringOp} {width : Width}
  (hmnemonic : ins.mnemonic = .string op width)
include hmnemonic

theorem turn_of_emulate {ok : Bool} (hready : Ready e) (hrep : e.rep.isSome = true)
    (hemulate : e.emulateInstruction ins = some (ok, e')) :
    Turn op width ok e (e'.updateX86RepStateAfterExecution ins) ∧
      ((e'.updateX86RepStateAfterExecution ins).rep.isSome = true →
        Ready (e'.updateX86RepStateAfterExecution ins)) := by
  have hmoves := moves_emulateInstruction hready.1 hmnemonic hemulate
  obtain ⟨rep, heq, hsome⟩ := counted_update ins (hmoves.rep ▸ hrep) (hmoves.rcx ▸ hready.2)
  rw [heq]
  exact ⟨⟨hmoves.cfg, hmoves.df, congrArg (· - 1) hmoves.rcx, hmoves.rsi, hmoves.rdi⟩,
    fun hrep' => ⟨(congrArg Cfg.isX64 hmoves.cfg).trans hready.1, hsome hrep'⟩⟩

theorem turns_of_pass {pass : Emu → Option Pass} {ready : Emu → Prop} (prepare finish : Emu → Emu)
    (hready : ∀ s, ready s → Ready (prepare s) ∧ (prepare s).rep.isSome = true)
    (hagain : ∀ s, Ready s → s.rep.isSome = true → ready s)
    (hsame : ∀ s, (prepare s).cfg = s.cfg ∧ (prepare s).flags = s.flags ∧ (prepare s).regs = s.regs)
    (hpass : ∀ s, ready s → pass s = ((prepare s).emulateInstruction ins).map fun (ok, s) =>
      let s := s.updateX86RepStateAfterExecution ins
      if !ok then .failed s else if s.rep.isNone then .done (finish s) else .again s) :
    Turns op width pass ready := by
  have hturn : ∀ s s' ok, Turn op width ok (prepare s) s' → Turn op width ok s s' := by
    intro s s' ok hturn
    obtain ⟨hcfg, hflags, hregs⟩ := hsame s
    have hindex : ∀ index, (prepare s).stepIndex width index = s.stepIndex width index := by
      intro index
      rw [stepIndex, stepIndex, hflags]
    constructor
    · rw [hturn.cfg, hcfg]
    · rw [hturn.df, hflags]
    · rw [hturn.rcx, hregs]
    · rw [hturn.rsi, hregs, hindex]
    · rw [hturn.rdi, hregs, hindex]
  constructor
  · intro s s' hs hout
    rw [hpass s hs] at hout
    obtain ⟨⟨ok, t⟩, hemulate, hout⟩ := map_eq_some_iff.mp hout
    obtain ⟨ht, hnext⟩ := turn_of_emulate hmnemonic (hready s hs).1 (hready s hs).2 hemulate
    cases ok with
    | false => cases hout
    | true =>
      cases hrep : (t.updateX86RepStateAfterExecution ins).rep with
      | none => simp [hrep] at hout
      | some c =>
        simp only [hrep, Bool.not_true, isNone_some, Bool.false_eq_true, if_false,
          Pass.again.injEq] at hout
        have hsome : (t.updateX86RepStateAfterExecution ins).rep.isSome = true :=
          isSome_of_eq_some hrep
        rw [← hout]
        exact ⟨hturn _ _ _ ht, (hnext hsome).2, hagain _ (hnext hsome) hsome⟩
  · intro s s' hs hout
    rw [hpass s hs] at hout
    obtain ⟨⟨ok, t⟩, hemulate, hout⟩ := map_eq_some_iff.mp hout
    obtain ⟨ht, -⟩ := turn_of_emulate hmnemonic (hready s hs).1 (hready s hs).2 hemulate
    cases ok with
    | false =>
      cases hout
      exact hturn _ _ _ ht
    | true =>
      simp only [Bool.not_true, Bool.false_eq_true, if_false] at hout
      split at hout <;> cases hout

theorem turns_repPass (hins : ins.isRepStringInstruction = true) (size : Nat) :
    Turns op width (fun s => s.repPass ins size) Ready :=
  turns_of_pass hmnemonic started (fun s => s.advancePcX86 size)
    (fun _ hready => ⟨hready, rfl⟩) (fun _ hready _ => hready) (fun _ => ⟨rfl, rfl, rfl⟩)
    (fun _ hready => repPass_eq hins hready.2)

theorem turns_fullPass : Turns op width (fullPass ins) (fun s => Ready s ∧ s.rep.isSome = true) :=
  turns_of_pass hmnemonic id id (fun _ hready => hready) (fun _ hready hrep => ⟨hready, hrep⟩)
    (fun _ => ⟨rfl, rfl, rfl⟩) (fun _ hready => if_neg hready.1.2)

end Turns

/-! ### Whole runs -/

section Runs

variable {pass : Emu → Option Pass} {ready : Emu → Prop} {op : StringOp} {width : Width}

theorem stateAt_succ {s' : Emu} {k : Nat} (hstate : stateAt pass e (k + 1) = some s') :
    ∃ s, stateAt pass e k = some s ∧ pass s = some (.again s') := by
  obtain ⟨s, hs, hpass⟩ := bind_eq_some_iff.mp hstate
  refine ⟨s, hs, ?_⟩
  split at hpass
  · next hagain =>
    cases hpass
    exact hagain
  · cases hpass

variable {s : Emu} {j : Nat}

theorem le_of_failsAt {i : Nat} (hstate : stateAt pass e i = some s)
    (hfails : FailsAt pass e j e') : i ≤ j := by
  induction i generalizing s with
  | zero => exact Nat.zero_le j
  | succ i ih =>
    obtain ⟨t, ht, hpass⟩ := stateAt_succ hstate
    rcases Nat.eq_or_lt_of_le (ih ht) with rfl | hlt
    · rw [FailsAt, ht, bind_some, hpass] at hfails
      cases hfails
    · exact hlt

/-- The registers before element `k`. -/
structure Before (op : StringOp) (width : Width) (e : Emu) (k : Nat) (s : Emu) : Prop where
  df : s.flags.fDf = e.flags.fDf
  left : k < e.regs.rcx.toNat
  rcx : s.regs.rcx = e.regs.rcx - BitVec.ofNat 64 k
  rsi : s.regs.rsi = moved op.usesSi e.flags.fDf width k e.regs.rsi
  rdi : s.regs.rdi = moved op.usesDi e.flags.fDf width k e.regs.rdi

theorem moved_zero (used df : Bool) (width : Width) (index : BitVec 64) :
    moved used df width 0 index = index := by
  simp [moved]

theorem moved_succ (hdf : s.flags.fDf = e.flags.fDf) (used : Bool) (width : Width) (k : Nat)
    (index : BitVec 64) :
    (if true && used then s.stepIndex width (moved used e.flags.fDf width k index)
      else moved used e.flags.fDf width k index) = moved used e.flags.fDf width (k + 1) index := by
  have hofNat : BitVec.ofNat 64 ((k + 1) * width.bytes) =
      BitVec.ofNat 64 (k * width.bytes) + BitVec.ofNat 64 width.bytes := by
    rw [Nat.succ_mul, ofNat_add]
  cases used with
  | false => rfl
  | true =>
    simp only [moved, stepIndex, hdf, hofNat, Bool.true_and, if_true]
    split <;> ring

theorem before_stateAt (hturns : Turns op width pass ready) (hready : ready e)
    (hrcx : e.regs.rcx ≠ 0) {k : Nat} (hstate : stateAt pass e k = some s) :
    Before op width e k s ∧ ready s := by
  induction k generalizing s with
  | zero =>
    cases hstate
    have hpos : 0 < e.regs.rcx.toNat := Nat.pos_of_ne_zero fun hzero => hrcx (eq_of_toNat_eq hzero)
    exact ⟨⟨rfl, hpos, (sub_zero _).symm, (moved_zero _ _ _ _).symm,
      (moved_zero _ _ _ _).symm⟩, hready⟩
  | succ k ih =>
    obtain ⟨t, ht, hpass⟩ := stateAt_succ hstate
    obtain ⟨hbefore, hready'⟩ := ih ht
    obtain ⟨hturn, hne, hnext⟩ := hturns.again t s hready' hpass
    have hcount : s.regs.rcx = e.regs.rcx - BitVec.ofNat 64 (k + 1) := by
      rw [hturn.rcx, hbefore.rcx, sub_ofNat_succ]
    have hleft : k + 1 ≠ e.regs.rcx.toNat := by
      rw [hcount] at hne
      exact mt (sub_ofNat_eq_zero hbefore.left).mpr hne
    refine ⟨⟨hturn.df.trans hbefore.df, Nat.lt_of_le_of_ne hbefore.left hleft, hcount, ?_, ?_⟩,
      hnext⟩
    · rw [hturn.rsi, hbefore.rsi, moved_succ hbefore.df]
    · rw [hturn.rdi, hbefore.rdi, moved_succ hbefore.df]

/-- A loop that fails in the turn of element `j` has counted `j + 1` elements and moved its index
registers over `j`. -/
theorem registers_of_failsAt (hturns : Turns op width pass ready) (hready : ready e)
    (hrcx : e.regs.rcx ≠ 0) (hfails : FailsAt pass e j e') :
    j < e.regs.rcx.toNat ∧ e'.regs.rcx = e.regs.rcx - BitVec.ofNat 64 (j + 1) ∧
      e'.regs.rsi = moved op.usesSi e.flags.fDf width j e.regs.rsi ∧
      e'.regs.rdi = moved op.usesDi e.flags.fDf width j e.regs.rdi := by
  obtain ⟨s, hstate, hpass⟩ := bind_eq_some_iff.mp hfails
  obtain ⟨hbefore, hready'⟩ := before_stateAt hturns hready hrcx hstate
  have hturn := hturns.failed s e' hready' hpass
  refine ⟨hbefore.left, ?_, hturn.rsi.trans hbefore.rsi, hturn.rdi.trans hbefore.rdi⟩
  rw [hturn.rcx, hbefore.rcx, sub_ofNat_succ]

theorem not_precise_of_failsAt (hturns : Turns op width pass ready) (hready : ready e)
    (hrcx : e.regs.rcx ≠ 0) {ins : Instruction} {i : Nat} (hfault : FirstFault pass ins e i)
    (hfails : FailsAt pass e j e') : ¬ Precise pass op width e i e' := by
  intro hprecise
  obtain ⟨s, hstate, -⟩ := (any_eq_true _ _).mp hfault.1
  have hle : i ≤ j := le_of_failsAt hstate hfails
  obtain ⟨hlt, hcount, -, -⟩ := registers_of_failsAt hturns hready hrcx hfails
  have heq : (e.regs.rcx - BitVec.ofNat 64 i).toNat =
      (e.regs.rcx - BitVec.ofNat 64 (j + 1)).toNat := by
    rw [← hprecise.rcx, hcount]
  rw [toNat_sub_ofNat (by omega), toNat_sub_ofNat (by omega)] at heq
  omega

theorem stateAt_of_again (hpass : pass e = some (.again s)) (k : Nat) :
    stateAt pass e (k + 1) = stateAt pass s k := by
  induction k with
  | zero => simp only [stateAt, bind_some, hpass]
  | succ k ih => rw [stateAt, ih, stateAt]

end Runs

variable {ins : Instruction}

theorem failsAt_of_fullLoop {fuel : Nat} (hloop : fullLoop ins fuel e = some (false, e')) :
    ∃ j, FailsAt (fullPass ins) e j e' := by
  induction fuel generalizing e with
  | zero => cases hloop
  | succ fuel ih =>
    obtain ⟨out, hpass, hrest⟩ := bind_eq_some_iff.mp hloop
    cases out with
    | done s => cases hrest
    | failed s =>
      cases hrest
      exact ⟨0, hpass⟩
    | again s =>
      obtain ⟨j, hfails⟩ := ih hrest
      refine ⟨j + 1, ?_⟩
      rw [FailsAt, stateAt_of_again hpass]
      exact hfails

/-- Neither loop is precise: a failure at or after the first failing access leaves `rcx` below the
count of the elements that are left. -/
theorem rep_faults_imprecise (ins : Instruction) (size : Nat) (e : Emu) {op : StringOp}
    {width : Width} (hmnemonic : ins.mnemonic = .string op width)
    (hins : ins.isRepStringInstruction = true) (hx64 : e.cfg.isX64 = true) (hrcx : e.regs.rcx ≠ 0)
    (i : Nat) : (FirstFault (fun s => s.repPass ins size) ins e i →
      ∀ j e', FailsAt (fun s => s.repPass ins size) e j e' →
        ¬ Precise (fun s => s.repPass ins size) op width e i e') ∧
    (FirstFault (fullPass ins) ins { e with rep := some 0 } i →
      ∀ fuel e', e.executeX86RepFully ins fuel = some (false, e') →
        ¬ Precise (fullPass ins) op width { e with rep := some 0 } i e') := by
  constructor
  · intro hfault j e' hfails
    exact not_precise_of_failsAt (turns_repPass hmnemonic hins size) ⟨hx64, hrcx⟩ hrcx hfault hfails
  intro hfault fuel e' hrun hprecise
  obtain ⟨⟨ok, s⟩, hloop, heq⟩ := map_eq_some_iff.mp hrun
  cases heq
  obtain ⟨j, hfails⟩ := failsAt_of_fullLoop hloop
  have hready : Ready { e with rep := some 0 } := ⟨hx64, hrcx⟩
  refine not_precise_of_failsAt (turns_fullPass hmnemonic) ⟨hready, rfl⟩ hrcx hfault hfails ?_
  exact ⟨hprecise.rcx, hprecise.rsi, hprecise.rdi, hprecise.effect⟩

/-- Sixteen bytes from 0x1000 to the last byte of the region: the second one has no place. -/
def faultState : Emu :=
  { copyState with regs := { copyState.regs with rdi := 0x10ff } }

theorem firstFault_movsb : FirstFault (fun s => s.repPass (repMovs .byte) 2) (repMovs .byte)
    faultState 1 := by
  unfold FirstFault
  decide +kernel

theorem firstFault_movsb_full : FirstFault (fullPass (repMovs .byte)) (repMovs .byte)
    { faultState with rep := some 0 } 1 := by
  unfold FirstFault
  decide +kernel

theorem failsAt_movsb : ∃ e', FailsAt (fun s => s.repPass (repMovs .byte) 2) faultState 1 e' ∧
    e'.regs.rcx = 14 := by
  have hrcx : ((stateAt (fun s => s.repPass (repMovs .byte) 2) faultState 1).bind fun s =>
      s.repPass (repMovs .byte) 2).any (fun
        | .failed e' => decide (e'.regs.rcx = 14)
        | _ => false) = true := by
    decide +kernel
  obtain ⟨out, hout, hany⟩ := (any_eq_true _ _).mp hrcx
  cases out with
  | failed e' => exact ⟨e', hout, of_decide_eq_true hany⟩
  | done e' | again e' => cases hany

theorem fails_movsb_full : ∃ e', faultState.executeX86RepFully (repMovs .byte) 16 =
    some (false, e') ∧ e'.regs.rcx = 14 := by
  have hrcx : (faultState.executeX86RepFully (repMovs .byte) 16).map
      (fun out => (out.1, out.2.regs.rcx)) = some (false, 14) := by
    decide +kernel
  obtain ⟨⟨ok, e'⟩, hrun, heq⟩ := map_eq_some_iff.mp hrcx
  obtain ⟨rfl, hcount⟩ := Prod.mk.inj heq
  exact ⟨e', hrun, hcount⟩

theorem rep_faults_imprecise_movsb :
    (∃ e', FailsAt (fun s => s.repPass (repMovs .byte) 2) faultState 1 e' ∧
      ¬ Precise (fun s => s.repPass (repMovs .byte) 2) .movs .byte faultState 1 e') ∧
    ∃ e', faultState.executeX86RepFully (repMovs .byte) 16 = some (false, e') ∧
      ¬ Precise (fullPass (repMovs .byte)) .movs .byte { faultState with rep := some 0 } 1 e' := by
  have himprecise := rep_faults_imprecise (repMovs .byte) 2 faultState rfl (by decide) rfl
    (by decide) 1
  obtain ⟨e', hfails, -⟩ := failsAt_movsb
  obtain ⟨e'', hrun, -⟩ := fails_movsb_full
  exact ⟨⟨e', hfails, himprecise.1 firstFault_movsb 1 e' hfails⟩,
    ⟨e'', hrun, himprecise.2 firstFault_movsb_full 16 e'' hrun⟩⟩

/-- The first failing access is the write of the second byte, and both loops stop there with 14 in
`rcx`, though one byte of sixteen is copied. -/
theorem movsb_fault_counts_failed_element :
    FirstFault (fun s => s.repPass (repMovs .byte) 2) (repMovs .byte) faultState 1 ∧
      (∃ e', FailsAt (fun s => s.repPass (repMovs .byte) 2) faultState 1 e' ∧ e'.regs.rcx = 14 ∧
        ¬ Precise (fun s => s.repPass (repMovs .byte) 2) .movs .byte faultState 1 e') ∧
      ∃ e', faultState.executeX86RepFully (repMovs .byte) 16 = some (false, e') ∧ e'.regs.rcx = 14 ∧
        ¬ Precise (fullPass (repMovs .byte)) .movs .byte { faultState with rep := some 0 } 1
          e' := by
  obtain ⟨e', hfails, hrcx⟩ := failsAt_movsb
  obtain ⟨e'', hrun, hrcx'⟩ := fails_movsb_full
  have hcount : (14 : BitVec 64) ≠ faultState.regs.rcx - BitVec.ofNat 64 1 := by decide
  refine ⟨firstFault_movsb, ⟨e', hfails, hrcx, fun hprecise => hcount ?_⟩,
    ⟨e'', hrun, hrcx', fun hprecise => hcount ?_⟩⟩
  · exact hrcx.symm.trans hprecise.rcx
  · exact hrcx'.symm.trans hprecise.rcx

end Emu

end Mwemu
