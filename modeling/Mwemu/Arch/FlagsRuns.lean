import Mathlib.Tactic.IntervalCases
import Mwemu.Arch.Shift

/-!
# Runs of flag helpers

PF and AF stay in the lazy record until somebody asks for them, and the helpers that write the
fields directly leave the record alone. Two states are alike when they show the same flags; every
helper keeps alike states alike, and materializing leaves a state alike to itself, so when it
happens makes no difference. The exception is AF after a shift: `calc_flags` hands on the field of
AF, which is out of date as long as the record is in use.
-/

namespace Mwemu.Arch

inductive ShiftKind where
  | shl
  | shr
  | sar
  deriving DecidableEq, Repr

inductive DoubleKind where
  | shld
  | shrd
  deriving DecidableEq, Repr

inductive RotateKind where
  | rcl
  | rcr
  | rol
  | ror
  deriving DecidableEq, Repr

/-- The calls of arithmetic, logic, shift, rotate and multiply helpers. ADC and SBB are given the
carry flag of the state they are applied to. -/
inductive Helper where
  | add (w : Width) (a b : Nat) (includeCarry : Bool)
  | sub (w : Width) (a b : Nat)
  | sbb (w : Width) (a b : Nat)
  | inc (w : Width) (value : BitVec 64)
  | dec (w : Width) (value : BitVec 64)
  | neg (w : Width) (value : BitVec 64)
  | test (w : Width) (value0 value1 : BitVec 64)
  | logic (w : Width) (result : BitVec 64)
  | shift (kind : ShiftKind) (w : Width) (value0 value1 : BitVec 64)
  | double (kind : DoubleKind) (w : Width) (value0 value1 count : BitVec 64)
  | rotate (kind : RotateKind) (w : Width) (value0 value1 : BitVec 64)
  | imul (w : Width) (value0 value1 : BitVec 64)
  deriving DecidableEq, Repr

namespace Flags

def shift : ShiftKind → Width → Flags → BitVec 64 → BitVec 64 → BitVec 64 × Flags
  | .shl => shl2p
  | .shr => shr2p
  | .sar => sar2p

def double : DoubleKind → Flags → BitVec 64 → BitVec 64 → BitVec 64 → Width → BitVec 64 × Flags
  | .shld => shld
  | .shrd => shrd

def rotate : RotateKind → Flags → BitVec 64 → BitVec 64 → Width → BitVec 64 × Flags
  | .rcl => rcl
  | .rcr => rcr
  | .rol => rol
  | .ror => ror

end Flags

def Helper.apply : Helper → Flags → Flags
  | .add w a b includeCarry, f => (f.addWidth w a b f.cf includeCarry).2
  | .sub w a b, f => (f.subWidth w a b).2
  | .sbb w a b, f => (f.subBorrowWidth w a b f.cf).2
  | .inc w value, f => (Flags.incWidth w f value).2
  | .dec w value, f => (Flags.decWidth w f value).2
  | .neg w value, f => (Flags.negWidth w f value).2
  | .test w value0 value1, f => f.test value0 value1 w
  | .logic w result, f => f.calcLogicFlagsLazy result w
  | .shift kind w value0 value1, f => (Flags.shift kind w f value0 value1).2
  | .double kind w value0 value1 count, f => (Flags.double kind f value0 value1 count w).2
  | .rotate kind w value0 value1, f => (Flags.rotate kind f value0 value1 w).2
  | .imul w value0 value1, f => (Flags.imulP2 w f value0 value1).2

/-- The operations on flags: the helpers, and those that set flags from values. -/
inductive Op where
  | helper (h : Helper)
  | calcPf (finalValue : BitVec 8)
  | calcAf (value1 value2 result : BitVec 64)
  | load (flags : BitVec 32)
  deriving DecidableEq, Repr

def Op.apply : Op → Flags → Flags
  | .helper h, f => h.apply f
  | .calcPf finalValue, f => f.calcPf finalValue
  | .calcAf value1 value2 result, f => f.calcAf value1 value2 result
  | .load flags, f => f.load flags

/-- Whether AF is defined after an operation, given whether it was before. A shift leaves it
undefined unless its masked count is zero; rotates, multiplications and `calc_pf` leave it alone. -/
def Op.auxAfter : Op → Bool → Bool
  | .helper (.shift _ w _ value1), d => if w.count value1 = 0 then d else false
  | .helper (.double _ w _ _ count), d => if Flags.doubleCount w count = 0 then d else false
  | .helper (.rotate ..), d => d
  | .helper (.imul ..), d => d
  | .calcPf _, d => d
  | _, _ => true

inductive Event where
  | op (o : Op)
  | materialize
  deriving DecidableEq, Repr

def Event.apply : Event → Flags → Flags
  | .op o, f => o.apply f
  | .materialize, f => f.materializeLazy

def Event.op? : Event → Option Op
  | .op o => some o
  | .materialize => none

/-- The operations of a sequence of events, without the calls of `materialize_lazy`. -/
def opsOf (events : List Event) : List Op :=
  events.filterMap Event.op?

def runEvents (events : List Event) (f : Flags) : Flags :=
  events.foldl (fun f e => e.apply f) f

def runEager (ops : List Op) (f : Flags) : Flags :=
  ops.foldl (fun f o => (o.apply f).materializeLazy) f

def auxDefined (ops : List Op) : Bool :=
  ops.foldl (fun d o => o.auxAfter d) true

namespace Flags

def system (f : Flags) : Flags :=
  { f with fCf := false, fPf := false, fAf := false, fZf := false, fSf := false, fOf := false,
           lazy := LazyFlags.default }

def clearTrap (f : Flags) : Flags :=
  { f with fTf := false }

theorem calcLogicFlagsLazy_system (f : Flags) (result : BitVec 64) (w : Width) :
    (f.calcLogicFlagsLazy result w).system = f.system.clearTrap := by
  cases w <;> rfl

/-- The same flags show, AF only where it is defined. -/
structure Alike (d : Bool) (f g : Flags) : Prop where
  cf : f.cf = g.cf
  pf : f.pf = g.pf
  af : d = true → f.af = g.af
  zf : f.zf = g.zf
  sf : f.sf = g.sf
  of : f.of = g.of
  system : f.system = g.system

theorem Alike.refl (d : Bool) (f : Flags) : Alike d f f :=
  ⟨rfl, rfl, fun _ => rfl, rfl, rfl, rfl, rfl⟩

theorem Alike.symm {d : Bool} {f g : Flags} (h : Alike d f g) : Alike d g f :=
  ⟨h.cf.symm, h.pf.symm, fun hd => (h.af hd).symm, h.zf.symm, h.sf.symm, h.of.symm, h.system.symm⟩

theorem Alike.trans {d : Bool} {f g h : Flags} (hfg : Alike d f g) (hgh : Alike d g h) :
    Alike d f h :=
  ⟨hfg.cf.trans hgh.cf, hfg.pf.trans hgh.pf, fun hd => (hfg.af hd).trans (hgh.af hd),
    hfg.zf.trans hgh.zf, hfg.sf.trans hgh.sf, hfg.of.trans hgh.of, hfg.system.trans hgh.system⟩

theorem alike_materializeLazy (d : Bool) (f : Flags) : Alike d f.materializeLazy f := by
  have hsame := sameArith_materializeLazy f
  refine ⟨hsame.cf, hsame.pf, fun _ => hsame.af, hsame.zf, hsame.sf, hsame.of, ?_⟩
  unfold materializeLazy
  cases f.lazy.kind <;> rfl

/-! ### What the helpers do to alike states -/

section Pieces

variable {d : Bool} {f g : Flags}

section

variable (hsystem : f.system = g.system)
include hsystem

theorem alike_storeOszapc (result : BitVec 64) (auxbits : BitVec 32) :
    Alike true (f.storeOszapc result auxbits) (g.storeOszapc result auxbits) :=
  ⟨rfl, rfl, fun _ => rfl, rfl, rfl, rfl, hsystem⟩

theorem alike_addWidth (w : Width) (a b : Nat) (cf includeCarry : Bool) :
    Alike true (f.addWidth w a b cf includeCarry).2 (g.addWidth w a b cf includeCarry).2 := by
  cases w <;> exact alike_storeOszapc hsystem _ _

theorem alike_subBorrowWidth (w : Width) (a b : Nat) (borrow : Bool) :
    Alike true (f.subBorrowWidth w a b borrow).2 (g.subBorrowWidth w a b borrow).2 := by
  cases w <;> exact alike_storeOszapc hsystem _ _

theorem alike_calcLogicFlagsLazy (result : BitVec 64) (w : Width) :
    Alike true (f.calcLogicFlagsLazy result w) (g.calcLogicFlagsLazy result w) := by
  have hclear : f.system.clearTrap = g.system.clearTrap := congrArg clearTrap hsystem
  cases w <;> exact ⟨rfl, rfl, fun _ => rfl, rfl, rfl, rfl, hclear⟩

end

theorem alike_calcFlags (hcf : f.fCf = g.fCf) (hof : f.fOf = g.fOf)
    (haf : d = true → f.fAf = g.fAf) (hsystem : f.system = g.system) (value : BitVec 64)
    (w : Width) : Alike d (f.calcFlags value w) (g.calcFlags value w) := by
  refine ⟨?_, ?_, fun hd => ?_, rfl, ?_, ?_, congrArg clearTrap hsystem⟩
  · rw [calcFlags_cf, calcFlags_cf, hcf]
  · rw [calcFlags_pf, calcFlags_pf]
  · rw [calcFlags_af, calcFlags_af, haf hd]
  · rw [calcFlags_sf, calcFlags_sf]
  · rw [calcFlags_of, calcFlags_of, hof]

section

variable (h : Alike d f g)
include h

theorem Alike.setCarry (cf of : Bool) :
    Alike d { f with fCf := cf, fOf := of } { g with fCf := cf, fOf := of } :=
  ⟨rfl, h.pf, h.af, h.zf, h.sf, rfl, h.system⟩

theorem Alike.setStep (w : Width) (result : BitVec 64) (af of : Bool) :
    Alike true (f.setStep w result af of) (g.setStep w result af of) :=
  ⟨h.cf, rfl, fun _ => rfl, rfl, rfl, rfl, h.system⟩

omit h in
theorem materializeLazy_kind (f : Flags) : f.materializeLazy.lazy.kind = .none := by
  cases hkind : f.lazy.kind <;> simp [materializeLazy, hkind, clearLazy, LazyFlags.default]

theorem Alike.materialized : Alike d f.materializeLazy g.materializeLazy :=
  ((alike_materializeLazy d f).trans h).trans (alike_materializeLazy d g).symm

theorem Alike.calcPf (value : BitVec 8) : Alike d (f.calcPf value) (g.calcPf value) := by
  have hm := h.materialized
  have hf := materializeLazy_kind f
  have hg := materializeLazy_kind g
  refine ⟨hm.cf, ?_, hm.af, hm.zf, hm.sf, hm.of, hm.system⟩
  simp only [Flags.calcPf, Flags.pf, hf, hg]

theorem Alike.calcAf (value1 value2 result : BitVec 64) :
    Alike true (f.calcAf value1 value2 result) (g.calcAf value1 value2 result) := by
  have hm := h.materialized
  have hf := materializeLazy_kind f
  have hg := materializeLazy_kind g
  refine ⟨hm.cf, hm.pf, fun _ => ?_, hm.zf, hm.sf, hm.of, hm.system⟩
  simp only [Flags.calcAf, Flags.af, hf, hg]

theorem Alike.negWidth (w : Width) (value : BitVec 64) :
    Alike true (Flags.negWidth w f value).2 (Flags.negWidth w g value).2 := by
  unfold Flags.negWidth
  apply Alike.calcPf
  refine alike_calcFlags ?_ ?_ ?_ ?_ _ w
  exacts [rfl, rfl, fun _ => rfl, h.system]

theorem Alike.shifted (k : Nat) (value result : BitVec 64) (cf of : Bool)
    (w : Width) : Alike (if k = 0 then d else false) (if k = 0 then (value, f)
        else (result, { f with fCf := cf, fOf := of }.calcFlags result w)).2
      (if k = 0 then (value, g)
        else (result, { g with fCf := cf, fOf := of }.calcFlags result w)).2 := by
  by_cases hk : k = 0
  · simpa only [if_pos hk] using h
  · simp only [if_neg hk]
    refine alike_calcFlags ?_ ?_ ?_ ?_ result w
    exacts [rfl, rfl, nofun, h.system]

theorem Alike.shift (kind : ShiftKind) (w : Width) (value0 value1 : BitVec 64) :
    Alike (if w.count value1 = 0 then d else false) (Flags.shift kind w f value0 value1).2
      (Flags.shift kind w g value0 value1).2 := by
  cases kind with
  | shl => exact h.shifted _ _ _ _ _ w
  | shr => exact h.shifted _ _ _ _ _ w
  | sar => cases w <;> exact h.shifted _ _ _ _ _ _

theorem Alike.double (kind : DoubleKind) (w : Width)
    (value0 value1 count : BitVec 64) : Alike (if doubleCount w count = 0 then d else false)
      (Flags.double kind f value0 value1 count w).2
      (Flags.double kind g value0 value1 count w).2 := by
  cases kind with
  | shld => exact h.shifted _ _ _ _ _ w
  | shrd => exact h.shifted _ _ _ _ _ w

end

theorem rotate_eq (kind : RotateKind) (f : Flags) (value0 value1 : BitVec 64) (w : Width) :
    (Flags.rotate kind f value0 value1 w).2 =
      { f with fCf := (Flags.rotate kind f value0 value1 w).2.fCf
               fOf := (Flags.rotate kind f value0 value1 w).2.fOf } := by
  cases kind with
  | rcl =>
    simp only [Flags.rotate, rcl]
    split <;> rfl
  | rcr => rfl
  | rol =>
    simp only [Flags.rotate, rol]
    by_cases hmasked : w.count value1 = 0
    · simp only [if_pos hmasked]
    · simp only [if_neg hmasked]
  | ror =>
    simp only [Flags.rotate, ror]
    split <;> rfl

theorem rotate_congr (hcf : f.fCf = g.fCf) (hof : f.fOf = g.fOf) (kind : RotateKind)
    (value0 value1 : BitVec 64) (w : Width) :
    (Flags.rotate kind f value0 value1 w).2.fCf = (Flags.rotate kind g value0 value1 w).2.fCf ∧
      (Flags.rotate kind f value0 value1 w).2.fOf =
        (Flags.rotate kind g value0 value1 w).2.fOf := by
  cases kind with
  | rcl =>
    simp only [Flags.rotate, rcl, hcf, hof]
    split <;> exact ⟨by simp only [hcf], by simp only [hof]⟩
  | rcr => simp only [Flags.rotate, rcr, hcf, hof, and_self]
  | rol =>
    simp only [Flags.rotate, rol, hof]
    split <;> exact ⟨by simp only [hcf], by simp only [hof]⟩
  | ror =>
    simp only [Flags.rotate, ror]
    split <;> exact ⟨by simp only [hcf], by simp only [hof]⟩

theorem Alike.rotate (h : Alike d f g) (kind : RotateKind) (w : Width) (value0 value1 : BitVec 64) :
    Alike d (Flags.rotate kind f value0 value1 w).2 (Flags.rotate kind g value0 value1 w).2 := by
  obtain ⟨hcf, hof⟩ := rotate_congr h.cf h.of kind value0 value1 w
  rw [rotate_eq kind f, rotate_eq kind g, hcf, hof]
  exact h.setCarry _ _

end Pieces

end Flags

open Flags

/-! ### Runs -/

variable {d : Bool} {f g : Flags}

theorem Helper.alike (h : Helper) (halike : Alike d f g) :
    Alike ((Op.helper h).auxAfter d) (h.apply f) (h.apply g) := by
  cases h with
  | add w a b includeCarry =>
    rw [Helper.apply, Helper.apply, halike.cf]
    exact alike_addWidth halike.system w a b _ includeCarry
  | sub w a b =>
    rw [Helper.apply, Helper.apply, subWidth_eq_subBorrowWidth, subWidth_eq_subBorrowWidth]
    exact alike_subBorrowWidth halike.system w a b false
  | sbb w a b =>
    rw [Helper.apply, Helper.apply, halike.cf]
    exact alike_subBorrowWidth halike.system w a b _
  | inc w value => exact halike.setStep w _ _ _
  | dec w value => exact halike.setStep w _ _ _
  | neg w value => exact halike.negWidth w value
  | test w value0 value1 => exact alike_calcLogicFlagsLazy halike.system _ w
  | logic w result => exact alike_calcLogicFlagsLazy halike.system result w
  | shift kind w value0 value1 => exact halike.shift kind w value0 value1
  | double kind w value0 value1 count => exact halike.double kind w value0 value1 count
  | rotate kind w value0 value1 => exact halike.rotate kind w value0 value1
  | imul w value0 value1 => exact halike.setCarry _ _

theorem Op.alike (o : Op) (halike : Alike d f g) :
    Alike (o.auxAfter d) (o.apply f) (o.apply g) := by
  cases o with
  | helper h => exact h.alike halike
  | calcPf finalValue => exact halike.calcPf finalValue
  | calcAf value1 value2 result => exact halike.calcAf value1 value2 result
  | load flags => exact Alike.refl true _

theorem run_alike (events : List Event) (halike : Alike d f g) :
    Alike ((opsOf events).foldl (fun d o => o.auxAfter d) d) (runEvents events f)
      (runEager (opsOf events) g) := by
  induction events generalizing d f g with
  | nil => exact halike
  | cons e events ih =>
    cases e with
    | op o =>
      have hop := o.alike halike
      exact ih (hop.trans (alike_materializeLazy _ (o.apply g)).symm)
    | materialize => exact ih ((alike_materializeLazy d f).trans halike)

/-! ### The flags register -/

theorem dump_eq (f : Flags) :
    f.dump = bitAt f.cf 0 ||| bitAt true 1 ||| bitAt f.pf 2 ||| bitAt f.af 4 ||| bitAt f.zf 6 |||
      bitAt f.sf 7 ||| bitAt f.system.fTf 8 ||| bitAt f.system.fIf 9 ||| bitAt f.system.fDf 10 |||
      bitAt f.of 11 ||| bitAt f.system.fIopl1 12 ||| bitAt f.system.fIopl2 13 |||
      bitAt f.system.fNt 14 ||| bitAt f.system.fRf 16 ||| bitAt f.system.fVm 17 |||
      bitAt f.system.fAc 18 ||| bitAt f.system.fVif 19 ||| bitAt f.system.fVip 20 |||
      bitAt f.system.fId 21 := by
  cases hkind : f.lazy.kind <;>
    simp only [dump, materializeLazy, hkind, Flags.pf, Flags.af, clearLazy] <;> rfl

theorem getLsbD_bitAt (flag : Bool) {i : Nat} (hi : i < 32) (j : Nat) :
    (bitAt flag i).getLsbD j = (flag && decide (j = i)) := by
  cases flag with
  | false => simp [bitAt]
  | true =>
    rw [bitAt, if_pos rfl, BitVec.getLsbD_shiftLeft, BitVec.getLsbD_one]
    rw [Bool.eq_iff_iff]
    simp
    omega

theorem Flags.Alike.dump_getLsbD (h : Alike d f g) {i : Nat} (hi : i ≠ 4) :
    f.dump.getLsbD i = g.dump.getLsbD i := by
  have haux : ∀ flag, (bitAt flag 4).getLsbD i = false := fun flag => by
    rw [getLsbD_bitAt flag (by decide), decide_eq_false hi, Bool.and_false]
  rw [dump_eq f, dump_eq g, h.cf, h.pf, h.zf, h.sf, h.of, h.system]
  simp only [BitVec.getLsbD_or, haux]

theorem Flags.Alike.dump (h : Alike true f g) : f.dump = g.dump := by
  rw [dump_eq f, dump_eq g, h.cf, h.pf, h.af rfl, h.zf, h.sf, h.of, h.system]

/-- Everything that can be seen of the flags is the same; AF and its bit only if it is defined. -/
structure Observed (d : Bool) (f g : Flags) : Prop where
  cf : f.cf = g.cf
  pf : f.pf = g.pf
  af : d = true → f.af = g.af
  zf : f.zf = g.zf
  sf : f.sf = g.sf
  of : f.of = g.of
  dump : d = true → f.dump = g.dump
  dumpBits : ∀ i, i ≠ 4 → f.dump.getLsbD i = g.dump.getLsbD i

theorem Flags.Alike.observed (h : Alike d f g) : Observed d f g := by
  refine ⟨h.cf, h.pf, h.af, h.zf, h.sf, h.of, ?_, fun i hi => h.dump_getLsbD hi⟩
  intro hd
  subst hd
  exact h.dump

/-- When the flags are materialized cannot be seen, at the end of any sequence of events and so
after each of its events. -/
theorem lazy_flags_invisible (events : List Event) (f : Flags) :
    Observed (auxDefined (opsOf events)) (runEvents events f) (runEager (opsOf events) f) ∧
    (∀ w value, ((Helper.inc w value).apply f).cf = f.cf ∧
      ((Helper.dec w value).apply f).cf = f.cf) ∧
    (∀ kind w value0 value1, let g := (Helper.rotate kind w value0 value1).apply f
      g.pf = f.pf ∧ g.af = f.af ∧ g.zf = f.zf ∧ g.sf = f.sf) := by
  refine ⟨(run_alike events (Alike.refl true f)).observed, fun w value => ⟨rfl, rfl⟩, ?_⟩
  intro kind w value0 value1
  have heq := rotate_eq kind f value0 value1 w
  simp only [Helper.apply]
  rw [heq]
  exact ⟨rfl, rfl, rfl, rfl⟩

theorem alike_load_dump (f g : Flags) : Alike true (g.load f.dump) f := by
  have hbit : ∀ i, f.dump.getLsbD i = _ := fun i => congrArg (BitVec.getLsbD · i) (dump_eq f)
  simp (disch := decide) only [BitVec.getLsbD_or, getLsbD_bitAt] at hbit
  refine ⟨(hbit 0).trans ?_, (hbit 2).trans ?_, fun _ => (hbit 4).trans ?_, (hbit 6).trans ?_,
    (hbit 7).trans ?_, (hbit 11).trans ?_, ?_⟩
  on_goal 7 => simp only [load, system, hbit]
  all_goals simp

/-- Flags that are saved with `dump` and loaded over others are the same to all that follows. -/
theorem flags_register_roundTrip (events : List Event) (f g : Flags) (v : BitVec 32) :
    Observed (auxDefined (opsOf events)) (runEvents events (g.load f.dump)) (runEvents events f) ∧
      (g.load v).dump = v &&& 0x3f7fd5 ||| 2 := by
  constructor
  · have hsaved := run_alike events (alike_load_dump f g)
    exact (hsaved.trans (run_alike events (Alike.refl true f)).symm).observed
  · apply BitVec.eq_of_getLsbD_eq
    intro i hi
    rw [dump_eq]
    simp (disch := decide) only [BitVec.getLsbD_or, getLsbD_bitAt, load, pf, af, system]
    interval_cases i <;> simp [LazyFlags.default]

/-! ### The flags outside arithmetic -/

/-- The helpers that end in `calc_flags` or `calc_logic_flags_lazy`, both of which clear TF. -/
def Helper.clearsTrap : Helper → Bool
  | .neg .. => true
  | .test .. => true
  | .logic .. => true
  | .shift _ w _ value1 => w.count value1 != 0
  | .double _ w _ _ count => doubleCount w count != 0
  | _ => false

def runHelpers (helpers : List Helper) (f : Flags) : Flags :=
  helpers.foldl (fun f h => h.apply f) f

theorem materializeLazy_system (f : Flags) : f.materializeLazy.system = f.system :=
  (alike_materializeLazy true f).system

theorem shifted_system (f : Flags) (k : Nat) (value result : BitVec 64) (cf of : Bool) (w : Width) :
    (if k = 0 then (value, f)
      else (result, { f with fCf := cf, fOf := of }.calcFlags result w)).2.system =
      if (k != 0) = true then f.system.clearTrap else f.system := by
  by_cases hk : k = 0
  · simp [hk]
  · simp only [if_neg hk, bne_iff_ne.mpr hk, if_pos]
    rfl

theorem Helper.apply_system (h : Helper) (f : Flags) :
    (h.apply f).system = if h.clearsTrap = true then f.system.clearTrap else f.system := by
  cases h with
  | add w a b includeCarry => cases w <;> rfl
  | sub w a b => cases w <;> rfl
  | sbb w a b => cases w <;> rfl
  | inc w value => rfl
  | dec w value => rfl
  | neg w value => exact materializeLazy_system _
  | test w value0 value1 => exact calcLogicFlagsLazy_system f _ w
  | logic w result => exact calcLogicFlagsLazy_system f result w
  | shift kind w value0 value1 =>
    cases kind with
    | shl => exact shifted_system f _ _ _ _ _ w
    | shr => exact shifted_system f _ _ _ _ _ w
    | sar => cases w <;> exact shifted_system f _ _ _ _ _ _
  | double kind w value0 value1 count =>
    cases kind with
    | shld => exact shifted_system f _ _ _ _ _ w
    | shrd => exact shifted_system f _ _ _ _ _ w
  | rotate kind w value0 value1 =>
    have heq := congrArg system (rotate_eq kind f value0 value1 w)
    exact heq
  | imul w value0 value1 => rfl

theorem runHelpers_system (helpers : List Helper) (f : Flags) : (runHelpers helpers f).system =
      if helpers.any Helper.clearsTrap = true then f.system.clearTrap else f.system := by
  induction helpers generalizing f with
  | nil => rfl
  | cons h helpers ih =>
    have hstep := ih (h.apply f)
    rw [h.apply_system f] at hstep
    rw [List.any_cons]
    refine hstep.trans ?_
    cases h.clearsTrap <;> cases helpers.any Helper.clearsTrap <;> rfl

def systemBits : List Nat := [8, 9, 10, 12, 13, 14, 16, 17, 18, 19, 20, 21]

def SystemKept (f g : Flags) : Prop :=
  ∀ i ∈ systemBits, g.dump.getLsbD i = f.dump.getLsbD i

theorem dump_trap (f : Flags) : f.dump.getLsbD 8 = f.fTf := by
  rw [dump_eq]
  simp only [BitVec.getLsbD_or]
  simp (disch := decide) only [getLsbD_bitAt]
  simp [system]

theorem systemKept_of_eq (hsystem : g.system = f.system) : SystemKept f g := by
  intro i hi
  have harith : ∀ j ∈ [0, 2, 4, 6, 7, 11], i ≠ j := by
    revert i
    decide
  rw [dump_eq f, dump_eq g, hsystem]
  simp only [BitVec.getLsbD_or]
  simp (disch := decide) only [getLsbD_bitAt]
  simp [harith]

/-- A sequence of helpers leaves the flags outside arithmetic alone exactly if TF is clear or none
of them clears it. -/
theorem system_kept_iff (helpers : List Helper) (f : Flags) : SystemKept f (runHelpers helpers f) ↔
      f.fTf = false ∨ ∀ h ∈ helpers, h.clearsTrap = false := by
  have hsystem := runHelpers_system helpers f
  constructor
  · intro hkept
    have htrap := hkept 8 (by decide)
    rw [dump_trap, dump_trap] at htrap
    by_cases hany : helpers.any Helper.clearsTrap = true
    · rw [if_pos hany] at hsystem
      left
      rw [← htrap]
      exact congrArg Flags.fTf hsystem
    · right
      intro h hmem
      rw [Bool.not_eq_true, List.any_eq_false] at hany
      exact Bool.eq_false_iff.mpr (hany h hmem)
  · intro hcond
    apply systemKept_of_eq
    rw [hsystem]
    rcases hcond with htrap | hnone
    · split
      · exact (show f.system.clearTrap = { f.system with fTf := false } from rfl).trans
          (by rw [← htrap]; rfl)
      · rfl
    rw [if_neg]
    rw [Bool.not_eq_true, List.any_eq_false]
    intro h hmem
    rw [hnone h hmem]
    exact Bool.false_ne_true

/-- TEST clears the trap flag. -/
theorem test_clears_trap :
    ¬ SystemKept { Flags.new with fTf := true }
      (runHelpers [.test .dword 1 1] { Flags.new with fTf := true }) := by
  intro hkept
  have htrap := hkept 8 (by decide)
  revert htrap
  decide

end Mwemu.Arch
