import Mwemu.Arch.Shift
import Mwemu.Lib.HostInt

/-!
# DIV and IDIV

The dividend of a division is a pair of registers, AH and AL for bytes and parts of RDX and RAX
otherwise; the quotient goes to the lower one and the remainder to the upper one. Each function
widens the operands to an integer of the host in which it divides, and compares the quotient there
with the bounds of the destination. Every addition and division of the host is checked.
-/

namespace Mwemu.Engine

open Mwemu.Arch Mwemu.Lib Mwemu.Lib.HostInt Option BitVec

structure Regs where
  rax : BitVec 64
  rdx : BitVec 64
  deriving DecidableEq, Repr

namespace Regs

variable (regs : Regs)

def getAx : BitVec 64 := regs.rax &&& 0xffff
def getDx : BitVec 64 := regs.rdx &&& 0xffff
def getEax : BitVec 64 := regs.rax &&& 0xffffffff
def getEdx : BitVec 64 := regs.rdx &&& 0xffffffff

/-- `set_reg16!`, `set_reg8l!` and `set_reg8h!`: clear the part, then add it. -/
def setPart (reg keep part : BitVec 64) : Option (BitVec 64) :=
  addChecked (reg &&& keep) part

def setAl (val : BitVec 64) : Option Regs := do
  let rax ← setPart regs.rax 0xffffffffffffff00 (val &&& 0xff)
  some { regs with rax := rax }

def setAh (val : BitVec 64) : Option Regs := do
  let rax ← setPart regs.rax 0xffffffffffff00ff ((val &&& 0xff) <<< 8)
  some { regs with rax := rax }

def setAx (val : BitVec 64) : Option Regs := do
  let rax ← setPart regs.rax 0xffffffffffff0000 (val &&& 0xffff)
  some { regs with rax := rax }

def setDx (val : BitVec 64) : Option Regs := do
  let rdx ← setPart regs.rdx 0xffffffffffff0000 (val &&& 0xffff)
  some { regs with rdx := rdx }

def setEax (val : BitVec 64) : Regs := { regs with rax := val &&& 0xffffffff }
def setEdx (val : BitVec 64) : Regs := { regs with rdx := val &&& 0xffffffff }

def store (w : Width) (resq resr : BitVec 64) : Option Regs :=
  match w with
  | .qword => some { rax := resq, rdx := resr }
  | .dword => some ((regs.setEax resq).setEdx resr)
  | .word => do (← regs.setAx resq).setDx resr
  | .byte => do (← regs.setAl resq).setAh resr

end Regs

inductive ExceptionType where
  | div0
  | signChangeOnDivision
  deriving DecidableEq, Repr

structure State where
  regs : Regs
  flags : Flags
  deriving DecidableEq, Repr

namespace State

def setTf (s : State) (tf : Bool) : State :=
  { s with flags := { s.flags.materializeLazy with fTf := tf } }

def calcPf (s : State) (value : BitVec 8) : State :=
  { s with flags := s.flags.materializeLazy.calcPf value }

end State

/-- A division ends with its registers written, or it calls `exception` in the state given and sets
`force_break`. -/
inductive Outcome where
  | done (s : State)
  | raised (exception : ExceptionType) (s : State)
  deriving DecidableEq, Repr

def divideByZero (s : State) : Outcome :=
  .raised .div0 (s.setTf true)

def divideOverflow (s : State) : Outcome :=
  .raised .div0 s

/-! ### Unsigned division -/

/-- The common part of the functions `div`: `n` is the width of the host's integer and `clears`
whether TF is cleared at the end. -/
def divBy {n : Nat} (w : Width) (clears : Bool) (value1 value2 : BitVec n) (s : State) :
    Option Outcome :=
  if value2 = 0 then some (divideByZero s)
  else do
    let resq ← udivChecked value1 value2
    let resr ← uremChecked value1 value2
    if resq.toNat > 2 ^ w.bits - 1 then some (divideOverflow s)
    else do
      let regs ← s.regs.store w (resq.setWidth 64) (resr.setWidth 64)
      let s := { s with regs := regs }.calcPf (resq.setWidth 8)
      some (.done (if clears then s.setTf false else s))

def div64 (s : State) (value0 : BitVec 64) : Option Outcome := do
  let value1 ← addChecked (s.regs.rdx.setWidth 128 <<< 64) (s.regs.rax.setWidth 128)
  divBy .qword false value1 (value0.setWidth 128) s

def div32 (s : State) (value0 : BitVec 64) : Option Outcome := do
  let value1 ← addChecked (s.regs.getEdx <<< 32) s.regs.getEax
  divBy .dword false value1 value0 s

def div16 (s : State) (value0 : BitVec 64) : Option Outcome := do
  let value1 ← addChecked (s.regs.getDx <<< 16) s.regs.getAx
  divBy .word true ((value1 &&& 0xffffffff).setWidth 32) (value0.setWidth 32) s

def div8 (s : State) (value0 : BitVec 64) : Option Outcome :=
  divBy .byte true (s.regs.getAx.setWidth 32) (value0.setWidth 32) s

/-! ### Signed division -/

def outOfRange {n : Nat} (w : Width) (resq : BitVec n) : Bool :=
  decide (resq.toInt > 2 ^ (w.bits - 1) - 1 ∨ resq.toInt < -2 ^ (w.bits - 1))

def idivChecked (dividend divisor : BitVec 128) (s : State) : Option Outcome :=
  if divisor = 0 then some (divideByZero s)
  else
    match sdivChecked dividend divisor, sremChecked dividend divisor with
    | some resq, some resr =>
      if outOfRange .qword resq then some (.raised .signChangeOnDivision s)
      else do
        let regs ← s.regs.store .qword (resq.setWidth 64) (resr.setWidth 64)
        some (.done (({ s with regs := regs }.calcPf (resq.setWidth 8)).setTf false))
    | _, _ => some (.raised .signChangeOnDivision s)

def idiv64 (s : State) (value0 : BitVec 64) : Option Outcome :=
  idivChecked ((s.regs.rdx.setWidth 128 <<< 64) ||| s.regs.rax.setWidth 128)
    (value0.signExtend 128) s

def idivBy {n : Nat} (w : Width) (dividend divisor : BitVec n) (s : State) : Option Outcome :=
  if divisor = 0 then some (divideByZero s)
  else do
    let resq ← sdivChecked dividend divisor
    let resr ← sremChecked dividend divisor
    let s := s.setTf false
    if outOfRange w resq then some (.raised .signChangeOnDivision s)
    else do
      let regs ← s.regs.store w ((resq.setWidth w.bits).setWidth 64)
        ((resr.setWidth w.bits).setWidth 64)
      some (.done ({ s with regs := regs }.calcPf (resq.setWidth 8)))

def idiv32 (s : State) (value0 : BitVec 64) : Option Outcome :=
  let hi := s.regs.getEdx &&& 0xffffffff
  let lo := s.regs.getEax &&& 0xffffffff
  idivBy .dword (((hi <<< 32) ||| lo).signExtend 128) ((value0.setWidth 32).signExtend 128) s

def idiv16 (s : State) (value0 : BitVec 64) : Option Outcome :=
  let hi := (s.regs.getDx.setWidth 16).setWidth 32
  let lo := (s.regs.getAx.setWidth 16).setWidth 32
  idivBy .word (((hi <<< 16) ||| lo).signExtend 64) ((value0.setWidth 16).signExtend 64) s

def idiv8 (s : State) (value0 : BitVec 64) : Option Outcome :=
  idivBy .byte ((s.regs.getAx.setWidth 16).signExtend 32) ((value0.setWidth 8).signExtend 32) s

def div : Width → State → BitVec 64 → Option Outcome
  | .byte => div8
  | .word => div16
  | .dword => div32
  | .qword => div64

def idiv : Width → State → BitVec 64 → Option Outcome
  | .byte => idiv8
  | .word => idiv16
  | .dword => idiv32
  | .qword => idiv64

/-! ### The register pair -/

namespace Regs

def low (w : Width) (regs : Regs) : BitVec w.bits := regs.rax.setWidth w.bits

def high (w : Width) (regs : Regs) : BitVec w.bits :=
  match w with
  | .byte => (regs.rax >>> 8).setWidth 8
  | .word => regs.rdx.setWidth 16
  | .dword => regs.rdx.setWidth 32
  | .qword => regs.rdx.setWidth 64

def pair (w : Width) (regs : Regs) : BitVec (w.bits + w.bits) :=
  regs.high w ++ regs.low w

variable {keep : BitVec 64}

theorem setPart_eq {reg part : BitVec 64} (hpart : keep &&& part = 0#64) :
    setPart reg keep part = some ((reg &&& keep) ||| part) := by
  apply addChecked_of_disjoint
  rw [BitVec.and_assoc, hpart, BitVec.and_zero]

variable {mask : BitVec 64}

theorem keep_and_mask (hmask : keep &&& mask = 0#64) (val : BitVec 64) :
    keep &&& (val &&& mask) = 0#64 := by
  rw [BitVec.and_comm val, ← BitVec.and_assoc, hmask, BitVec.zero_and]

theorem setAl_eq (regs : Regs) (val : BitVec 64) : regs.setAl val =
    some { regs with rax := (regs.rax &&& 0xffffffffffffff00) ||| (val &&& 0xff) } := by
  rw [setAl, setPart_eq (keep_and_mask (by decide) val)]
  rfl

theorem setAx_eq (regs : Regs) (val : BitVec 64) : regs.setAx val =
    some { regs with rax := (regs.rax &&& 0xffffffffffff0000) ||| (val &&& 0xffff) } := by
  rw [setAx, setPart_eq (keep_and_mask (by decide) val)]
  rfl

theorem setDx_eq (regs : Regs) (val : BitVec 64) : regs.setDx val =
    some { regs with rdx := (regs.rdx &&& 0xffffffffffff0000) ||| (val &&& 0xffff) } := by
  rw [setDx, setPart_eq (keep_and_mask (by decide) val)]
  rfl

theorem setAh_eq (regs : Regs) (val : BitVec 64) : regs.setAh val =
    some { regs with rax := (regs.rax &&& 0xffffffffffff00ff) ||| ((val &&& 0xff) <<< 8) } := by
  have hpart : (0xffffffffffff00ff : BitVec 64) &&& ((val &&& 0xff) <<< 8) = 0#64 := by
    rw [shiftLeft_and_distrib]
    exact keep_and_mask (by decide) (val <<< 8)
  rw [setAh, setPart_eq hpart]
  rfl

theorem setWidth_mask {m : Nat} (hmask : mask.setWidth m = BitVec.allOnes m) (val : BitVec 64) :
    (val &&& mask).setWidth m = val.setWidth m := by
  rw [setWidth_and, hmask, and_allOnes]

theorem setWidth_part {m : Nat} (hkeep : keep.setWidth m = 0#m)
    (hmask : mask.setWidth m = BitVec.allOnes m) (reg val : BitVec 64) :
    ((reg &&& keep) ||| (val &&& mask)).setWidth m = val.setWidth m := by
  rw [setWidth_or, setWidth_mask hmask, setWidth_and, hkeep, and_zero, zero_or]

theorem high_part (reg val : BitVec 64) :
    (((reg &&& 0xffffffffffff00ff) ||| ((val &&& 0xff) <<< 8)) >>> 8).setWidth 8 =
      val.setWidth 8 := by
  apply eq_of_getLsbD_eq
  intro i hi
  interval_cases i <;> simp

theorem low_of_high_part (reg val : BitVec 64) :
    ((reg &&& 0xffffffffffff00ff) ||| ((val &&& 0xff) <<< 8)).setWidth 8 = reg.setWidth 8 := by
  apply eq_of_getLsbD_eq
  intro i hi
  interval_cases i <;> simp

theorem store_spec (w : Width) (regs : Regs) (resq resr : BitVec 64) :
    ∃ regs', regs.store w resq resr = some regs' ∧ regs'.low w = resq.setWidth w.bits ∧
      regs'.high w = resr.setWidth w.bits := by
  cases w with
  | qword => exact ⟨_, rfl, rfl, rfl⟩
  | dword =>
    exact ⟨_, rfl, setWidth_mask (by decide) resq, setWidth_mask (by decide) resr⟩
  | word =>
    simp only [store, setAx_eq, setDx_eq, bind_eq_bind, bind_some]
    exact ⟨_, rfl, setWidth_part (by decide) (by decide) regs.rax resq,
      setWidth_part (by decide) (by decide) regs.rdx resr⟩
  | byte =>
    simp only [store, setAl_eq, setAh_eq, bind_eq_bind, bind_some]
    refine ⟨_, rfl, ?_, high_part _ resr⟩
    exact (low_of_high_part _ resr).trans (setWidth_part (by decide) (by decide) regs.rax resq)

theorem and_mask_eq (w : Width) (reg : BitVec 64) :
    reg &&& w.ones = (reg.setWidth w.bits).setWidth 64 :=
  Flags.and_ones_eq fun _ _ => rfl

end Regs

def divBits : Width → Nat
  | .byte => 32
  | .word => 32
  | .dword => 64
  | .qword => 128

def divClears : Width → Bool
  | .byte => true
  | .word => true
  | .dword => false
  | .qword => false

theorem pair_byte (regs : Regs) : (regs.pair .byte) = regs.rax.setWidth 16 := by
  apply eq_of_getLsbD_eq
  intro i hi
  change i < 16 at hi
  change ((regs.rax >>> 8).setWidth 8 ++ regs.rax.setWidth 8).getLsbD i =
    BitVec.getLsbD (w := 16) (regs.rax.setWidth 16) i
  rw [getLsbD_append, getLsbD_setWidth, getLsbD_setWidth, getLsbD_setWidth, getLsbD_ushiftRight]
  by_cases hlow : i < 8
  · simp [hlow, hi]
  · simp [hlow, hi, show i - 8 < 8 by omega, show 8 + (i - 8) = i by omega]

theorem pair_qword (regs : Regs) : regs.pair .qword = regs.rdx ++ regs.rax := by
  have hrdx : regs.rdx.setWidth 64 = regs.rdx := setWidth_eq regs.rdx
  have hrax : regs.rax.setWidth 64 = regs.rax := setWidth_eq regs.rax
  change regs.rdx.setWidth 64 ++ regs.rax.setWidth 64 = regs.rdx ++ regs.rax
  rw [hrdx, hrax]

theorem dividend64 (regs : Regs) :
    addChecked (regs.rdx.setWidth 128 <<< 64) (regs.rax.setWidth 128) =
      some ((regs.pair .qword).setWidth 128) := by
  rw [addChecked_halves, pair_qword]
  rfl

theorem dividend32 (regs : Regs) :
    addChecked (regs.getEdx <<< 32) regs.getEax = some ((regs.pair .dword).setWidth 64) := by
  have hedx : regs.getEdx = (regs.rdx.setWidth 32).setWidth 64 := Regs.and_mask_eq .dword regs.rdx
  have heax : regs.getEax = (regs.rax.setWidth 32).setWidth 64 := Regs.and_mask_eq .dword regs.rax
  rw [hedx, heax, addChecked_halves]
  rfl

theorem dividend16 (regs : Regs) :
    addChecked (regs.getDx <<< 16) regs.getAx = some ((regs.pair .word).setWidth 64) := by
  have hdx : regs.getDx = (regs.rdx.setWidth 16).setWidth 64 := Regs.and_mask_eq .word regs.rdx
  have hax : regs.getAx = (regs.rax.setWidth 16).setWidth 64 := Regs.and_mask_eq .word regs.rax
  rw [hdx, hax, addChecked_halves]
  rfl

theorem dividend8 (regs : Regs) : regs.getAx.setWidth 32 = (regs.pair .byte).setWidth 32 := by
  have hax : regs.getAx = (regs.rax.setWidth 16).setWidth 64 := Regs.and_mask_eq .word regs.rax
  rw [hax, pair_byte, setWidth_setWidth_of_le _ (by decide)]
  rfl

theorem div_eq (w : Width) (s : State) (d : BitVec w.bits) :
    div w s (d.setWidth 64) = divBy w (divClears w) ((s.regs.pair w).setWidth (divBits w))
      (d.setWidth (divBits w)) s := by
  cases w with
  | qword =>
    have hd : (d.setWidth 64).setWidth 128 = d.setWidth 128 :=
      congrArg (BitVec.setWidth 128) (setWidth_eq d)
    change div64 s (d.setWidth 64) = _
    rw [div64, dividend64, hd]
    rfl
  | dword =>
    change div32 s (d.setWidth 64) = _
    rw [div32, dividend32]
    rfl
  | word =>
    have hd : (d.setWidth 64).setWidth 32 = d.setWidth 32 := setWidth_setWidth_of_le d (by decide)
    have hpair : (((s.regs.pair .word).setWidth 64) &&& 0xffffffff).setWidth 32 =
        (s.regs.pair .word).setWidth 32 := by
      rw [Regs.setWidth_mask (by decide), setWidth_setWidth_of_le _ (by decide)]
    change div16 s (d.setWidth 64) = _
    rw [div16, dividend16, hd]
    change divBy .word true ((((s.regs.pair .word).setWidth 64) &&& 0xffffffff).setWidth 32)
      (d.setWidth 32) s = _
    rw [hpair]
    rfl
  | byte =>
    have hd : (d.setWidth 64).setWidth 32 = d.setWidth 32 := setWidth_setWidth_of_le d (by decide)
    change div8 s (d.setWidth 64) = _
    rw [div8, dividend8, hd]
    rfl

/-! ### What a division is -/

/-- The outcome of a division of `D` by `d` with registers read by `val`: it raises exactly if the
divisor is zero or the quotient does not fit, with the registers untouched, and otherwise the
registers hold the quotient and the remainder. -/
structure Division (w : Width) (val : BitVec w.bits → Int) (fits : Int → Prop) (D : Int)
    (d : BitVec w.bits) (s : State) (out : Outcome) : Prop where
  raises_iff : (∃ e s', out = .raised e s') ↔ val d = 0 ∨ ¬ fits (D.tdiv (val d))
  untouched : ∀ e s', out = .raised e s' → s'.regs = s.regs
  divided : ∀ s', out = .done s' →
    Quotient D (val d) (val (s'.regs.low w)) (val (s'.regs.high w)) ∧
      fits (val (s'.regs.low w))

section Outcomes

variable {w : Width} {val : BitVec w.bits → Int} {fits : Int → Prop} {D : Int} {d : BitVec w.bits}
  {s : State}

theorem division_raised {e : ExceptionType} {s' : State} (hregs : s'.regs = s.regs)
    (hcond : val d = 0 ∨ ¬ fits (D.tdiv (val d))) : Division w val fits D d s (.raised e s') := by
  refine ⟨iff_of_true ⟨e, s', rfl⟩ hcond, fun e₁ s₁ heq => ?_, fun s₁ heq => ?_⟩
  · injection heq with _ hs
    rw [← hs, hregs]
  · contradiction

theorem division_done {s' : State} (hd : val d ≠ 0) (hfits : fits (D.tdiv (val d)))
    (hlow : val (s'.regs.low w) = D.tdiv (val d)) (hhigh : val (s'.regs.high w) = D.tmod (val d)) :
    Division w val fits D d s (.done s') := by
  have hnot : ¬ ∃ e s₁, Outcome.done s' = .raised e s₁ := fun ⟨_, _, heq⟩ => by contradiction
  refine ⟨iff_of_false hnot fun h => h.elim hd fun hunfit => hunfit hfits,
    fun e s₁ heq => absurd ⟨e, s₁, heq⟩ hnot, fun s₁ heq => ?_⟩
  injection heq with hs
  rw [← hs, hlow, hhigh]
  exact ⟨quotient_tdiv hd, hfits⟩

end Outcomes

/-! ### The unsigned divisions -/

def UFits (w : Width) (q : Int) : Prop :=
  0 ≤ q ∧ q < 2 ^ w.bits

def uval {n : Nat} (b : BitVec n) : Int := b.toNat

variable {n : Nat} {w : Width}

theorem toNat_stored {x : BitVec n} (hx : x.toNat < 2 ^ w.bits) :
    ((x.setWidth 64).setWidth w.bits).toNat = x.toNat := by
  have hle : 2 ^ w.bits ≤ 2 ^ 64 := Nat.pow_le_pow_right (by decide) w.bits_le
  rw [toNat_setWidth, toNat_setWidth, Nat.mod_eq_of_lt (hx.trans_le hle), Nat.mod_eq_of_lt hx]

theorem finish_regs (s : State) (regs : Regs) (value : BitVec 8) (clears : Bool) :
    (if clears = true then ({ s with regs := regs }.calcPf value).setTf false
      else { s with regs := regs }.calcPf value).regs = regs := by
  cases clears <;> rfl

theorem divBy_division (w : Width) (clears : Bool) (hn : w.bits + w.bits ≤ n) (s : State)
    (d : BitVec w.bits) :
    ∃ out, divBy w clears ((s.regs.pair w).setWidth n) (d.setWidth n) s = some out ∧
      Division w uval (UFits w) (s.regs.pair w).toNat d s out := by
  have hpair : ((s.regs.pair w).setWidth n).toNat = (s.regs.pair w).toNat := toNat_setWidth_of_le hn
  have hdn : (d.setWidth n).toNat = d.toNat := toNat_setWidth_of_le (by omega)
  unfold divBy
  by_cases hzero : d.setWidth n = 0
  · rw [if_pos hzero]
    refine ⟨_, rfl, division_raised rfl (Or.inl ?_)⟩
    have hnat := congrArg BitVec.toNat hzero
    rw [hdn] at hnat
    simpa [uval] using hnat
  rw [if_neg hzero, udivChecked_of_ne hzero, uremChecked_of_ne hzero]
  simp only [bind_eq_bind, bind_some]
  have hpos : 0 < d.toNat := by
    refine Nat.pos_of_ne_zero fun hnat => hzero ?_
    exact eq_of_toNat_eq (hdn.trans (hnat.trans toNat_zero.symm))
  have hval : uval d ≠ 0 := Int.natCast_ne_zero.mpr hpos.ne'
  set resq := (s.regs.pair w).setWidth n / d.setWidth n with hresq
  set resr := (s.regs.pair w).setWidth n % d.setWidth n with hresr
  have hq : resq.toNat = (s.regs.pair w).toNat / d.toNat := by
    rw [hresq, toNat_udiv, hpair, hdn]
  have hr : resr.toNat = (s.regs.pair w).toNat % d.toNat := by
    rw [hresr, toNat_umod, hpair, hdn]
  have htdiv : ((s.regs.pair w).toNat : Int).tdiv (uval d) = resq.toNat := by
    rw [hq, uval, Int.ofNat_tdiv]
  have htmod : ((s.regs.pair w).toNat : Int).tmod (uval d) = resr.toNat := by
    rw [hr]
    rfl
  by_cases hlarge : resq.toNat > 2 ^ w.bits - 1
  · rw [if_pos hlarge]
    refine ⟨_, rfl, division_raised rfl (Or.inr fun hfits => ?_)⟩
    have hlt := hfits.2
    rw [htdiv] at hlt
    norm_cast at hlt
    omega
  rw [if_neg hlarge]
  obtain ⟨regs, hstore, hlow, hhigh⟩ := s.regs.store_spec w (resq.setWidth 64) (resr.setWidth 64)
  rw [hstore]
  have hqlt : resq.toNat < 2 ^ w.bits := by omega
  have hrlt : resr.toNat < 2 ^ w.bits := by
    rw [hr]
    exact (Nat.mod_lt _ hpos).trans d.isLt
  refine ⟨_, rfl, division_done hval ?_ ?_ ?_⟩
  · rw [htdiv]
    exact ⟨Int.natCast_nonneg _, by exact_mod_cast hqlt⟩
  · rw [htdiv, finish_regs, uval, hlow, toNat_stored hqlt]
  · rw [htmod, finish_regs, uval, hhigh, toNat_stored hrlt]

theorem divBits_le (w : Width) : w.bits + w.bits ≤ divBits w := by
  cases w <;> decide

theorem div_division (w : Width) (s : State) (d : BitVec w.bits) :
    ∃ out, div w s (d.setWidth 64) = some out ∧
      Division w uval (UFits w) (s.regs.pair w).toNat d s out := by
  rw [div_eq]
  exact divBy_division w (divClears w) (divBits_le w) s d

/-! ### The signed divisions -/

def idivBits : Width → Nat
  | .byte => 32
  | .word => 64
  | .dword => 128
  | .qword => 128

theorem idiv_eq (hw : w ≠ .qword) (s : State) (d : BitVec w.bits) :
    idiv w s (d.setWidth 64) = idivBy w ((s.regs.pair w).signExtend (idivBits w))
      (d.signExtend (idivBits w)) s := by
  have hd : (d.setWidth 64).setWidth w.bits = d := Flags.setWidth_setWidth_operand d
  cases w with
  | qword => exact absurd rfl hw
  | dword =>
    have hpair : ((s.regs.getEdx &&& 0xffffffff) <<< 32) ||| (s.regs.getEax &&& 0xffffffff) =
        s.regs.pair .dword := by
      have hmask (reg : BitVec 64) :
          (reg &&& 0xffffffff) &&& 0xffffffff = (reg.setWidth 32).setWidth 64 := by
        rw [BitVec.and_assoc, BitVec.and_self]
        exact Regs.and_mask_eq .dword reg
      rw [Regs.getEdx, Regs.getEax, hmask, hmask, shiftLeft_or_setWidth]
      exact setWidth_eq _
    change idiv32 s (d.setWidth 64) = _
    simp only [idiv32, hpair]
    exact congrArg (fun e => idivBy .dword _ (BitVec.signExtend 128 e) s) hd
  | word =>
    have hpair : ((s.regs.getDx.setWidth 16).setWidth 32 <<< 16) |||
        (s.regs.getAx.setWidth 16).setWidth 32 = s.regs.pair .word := by
      rw [Regs.getDx, Regs.getAx, Regs.setWidth_mask (by decide), Regs.setWidth_mask (by decide),
        shiftLeft_or_setWidth]
      exact setWidth_eq _
    change idiv16 s (d.setWidth 64) = _
    simp only [idiv16, hpair]
    exact congrArg (fun e => idivBy .word _ (BitVec.signExtend 64 e) s) hd
  | byte =>
    have hpair : s.regs.getAx.setWidth 16 = s.regs.pair .byte := by
      rw [Regs.getAx, Regs.setWidth_mask (by decide), pair_byte]
    change idiv8 s (d.setWidth 64) = _
    simp only [idiv8, hpair]
    exact congrArg (fun e => idivBy .byte _ (BitVec.signExtend 32 e) s) hd

theorem outOfRange_iff (w : Width) (resq : BitVec n) :
    outOfRange w resq = true ↔ ¬ FitsSigned w.bits resq.toInt := by
  rw [outOfRange, decide_eq_true_iff, FitsSigned]
  omega

variable {m : Nat}

theorem signExtend_ne_zero (hnm : m ≤ n) {d : BitVec m} : d.signExtend n = 0 ↔ d.toInt = 0 := by
  rw [← toInt_inj, toInt_signExtend_of_le hnm]
  simp

/-- Where the host divides, the outcome is decided by the range of the quotient. -/
theorem signed_division (hwn : w.bits ≤ n) {D : BitVec n} {d : BitVec w.bits}
    (hd : d.signExtend n ≠ 0) (hmin : ¬ (D = BitVec.intMin n ∧ d.signExtend n = -1))
    {s s₁ s₂ : State} (hregs : s₁.regs = s.regs)
    (hlow : s₂.regs.low w = (D.sdiv (d.signExtend n)).setWidth w.bits)
    (hhigh : s₂.regs.high w = (D.srem (d.signExtend n)).setWidth w.bits) :
    Division w BitVec.toInt (FitsSigned w.bits) D.toInt d s
      (if outOfRange w (D.sdiv (d.signExtend n)) then .raised .signChangeOnDivision s₁
        else .done s₂) := by
  have hdn : (d.signExtend n).toInt = d.toInt := toInt_signExtend_of_le hwn
  have hq : (D.sdiv (d.signExtend n)).toInt = D.toInt.tdiv d.toInt := by
    rw [toInt_sdiv_of_ne_or_ne _ _ (not_and_or.mp hmin), hdn]
  have hr : (D.srem (d.signExtend n)).toInt = D.toInt.tmod d.toInt := by
    rw [toInt_srem, hdn]
  have hval : d.toInt ≠ 0 := (signExtend_ne_zero hwn).not.mp hd
  split
  · next hrange =>
    refine division_raised hregs (Or.inr ?_)
    rw [← hq]
    exact (outOfRange_iff w _).mp hrange
  · next hrange =>
    have hfits := not_not.mp ((outOfRange_iff w _).not.mp hrange)
    have hdfits : FitsSigned w.bits d.toInt := ⟨le_toInt d, toInt_lt⟩
    have hrfits := fits_of_abs_lt hdfits (quotient_tdiv (a := D.toInt) hval).small
    rw [← hr] at hrfits
    apply division_done hval
    · rwa [← hq]
    · rw [hlow, toInt_setWidth_of_fits w.bits_pos hwn hfits, hq]
    · rw [hhigh, toInt_setWidth_of_fits w.bits_pos hwn hrfits, hr]

theorem idivBy_division (w : Width) (hn : w.bits + w.bits < n) (s : State) (d : BitVec w.bits) :
    ∃ out, idivBy w ((s.regs.pair w).signExtend n) (d.signExtend n) s = some out ∧
      Division w BitVec.toInt (FitsSigned w.bits) (s.regs.pair w).toInt d s out := by
  rw [← toInt_signExtend_of_le hn.le]
  unfold idivBy
  by_cases hd : d.signExtend n = 0
  · rw [if_pos hd]
    exact ⟨_, rfl, division_raised rfl (Or.inl ((signExtend_ne_zero (by omega)).mp hd))⟩
  -- the host's integer has more than twice the bits, so its smallest value is no dividend
  have hmin : ¬ ((s.regs.pair w).signExtend n = BitVec.intMin n ∧ d.signExtend n = -1) := by
    apply not_min_of_lt _ (by omega)
    rw [toInt_signExtend_of_le hn.le]
    refine lt_of_lt_of_le ?_ (le_toInt _)
    rw [neg_lt_neg_iff]
    exact pow_lt_pow_right₀ (by decide) (by have := w.bits_pos; omega)
  set D := (s.regs.pair w).signExtend n
  obtain ⟨regs, hstore, hlow, hhigh⟩ := (s.setTf false).regs.store_spec w
    (((D.sdiv (d.signExtend n)).setWidth w.bits).setWidth 64)
    (((D.srem (d.signExtend n)).setWidth w.bits).setWidth 64)
  rw [Flags.setWidth_setWidth_operand] at hlow hhigh
  simp only [if_neg hd, sdivChecked_of_ne hd hmin, sremChecked_of_ne hd hmin,
    bind_eq_bind, bind_some, hstore]
  exact ⟨_, (apply_ite some ..).symm, signed_division (by omega) hd hmin rfl hlow hhigh⟩

/-- The 64-bit form divides in an integer of exactly twice the width, where the quotient of the
smallest dividend by minus one does not fit the host either. -/
theorem idivChecked_division (D : BitVec 128) (d : BitVec Width.qword.bits) (s : State) :
    ∃ out, idivChecked D (d.signExtend 128) s = some out ∧
      Division .qword BitVec.toInt (FitsSigned Width.qword.bits) D.toInt d s out := by
  unfold idivChecked
  by_cases hd : d.signExtend 128 = 0
  · rw [if_pos hd]
    exact ⟨_, rfl, division_raised rfl (Or.inl ((signExtend_ne_zero (by decide)).mp hd))⟩
  rw [if_neg hd]
  by_cases hmin : D = BitVec.intMin 128 ∧ d.signExtend 128 = -1
  · have hnone : sdivChecked D (d.signExtend 128) = none := if_pos (Or.inr hmin)
    rw [hnone]
    refine ⟨_, rfl, division_raised rfl (Or.inr fun hfits => ?_)⟩
    have hone : d.toInt = -1 := by
      rw [← toInt_signExtend_of_le (show Width.qword.bits ≤ 128 by decide), hmin.2]
      decide
    rw [hmin.1, hone] at hfits
    exact absurd hfits.2 (by decide)
  · rw [sdivChecked_of_ne hd hmin, sremChecked_of_ne hd hmin]
    exact ⟨_, (apply_ite some ..).symm, signed_division (by decide) hd hmin rfl rfl rfl⟩

theorem idiv64_eq (s : State) (d : BitVec 64) : idiv64 s (d.setWidth 64) =
    idivChecked (s.regs.rdx ++ s.regs.rax) (d.signExtend 128) s := by
  have hdividend : (s.regs.rdx.setWidth 128 <<< 64) ||| s.regs.rax.setWidth 128 =
      s.regs.rdx ++ s.regs.rax := by
    rw [shiftLeft_or_setWidth]
    exact setWidth_eq _
  rw [idiv64, hdividend, setWidth_eq]

theorem idivBits_lt (hw : w ≠ .qword) : w.bits + w.bits < idivBits w := by
  revert hw
  cases w <;> decide

theorem idiv_division (w : Width) (s : State) (d : BitVec w.bits) :
    ∃ out, idiv w s (d.setWidth 64) = some out ∧
      Division w BitVec.toInt (FitsSigned w.bits) (s.regs.pair w).toInt d s out := by
  by_cases hw : w = .qword
  · subst hw
    rw [pair_qword]
    obtain ⟨out, hout, hdiv⟩ := idivChecked_division (s.regs.rdx ++ s.regs.rax) d s
    exact ⟨out, (idiv64_eq s d).trans hout, hdiv⟩
  · rw [idiv_eq hw]
    exact idivBy_division w (idivBits_lt hw) s d

/-- Division at every width, of the pair of registers by any divisor of the width: no arithmetic of
the host overflows, the exception comes exactly for a zero divisor or a quotient that does not fit,
before any register is written, and otherwise quotient and remainder are those of the truncating
division. -/
theorem division (w : Width) (s : State) (d : BitVec w.bits) :
    (∃ out, div w s (d.setWidth 64) = some out ∧
      Division w uval (UFits w) (uval (s.regs.pair w)) d s out) ∧
    (∃ out, idiv w s (d.setWidth 64) = some out ∧
      Division w BitVec.toInt (FitsSigned w.bits) (s.regs.pair w).toInt d s out) :=
  ⟨div_division w s d, idiv_division w s d⟩

end Mwemu.Engine
