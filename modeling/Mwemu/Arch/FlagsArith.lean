import Mwemu.Arch.Flags

/-!
# The flags an addition or subtraction leaves

Every width funnels into `storeOszapc`, so the proof has two halves: what `storeOszapc` makes of any
`auxbits` with the documented layout, and that the carry vector of each width is laid out so.
-/

namespace Mwemu.Arch

open Mwemu.Lib BitVec

def evenParity (value : Nat) : Bool :=
  (List.range 8).countP (fun i => value.testBit i) % 2 == 0

/-- The six arithmetic flags after an operation of width `w` with result `r`, exact signed value
`exact`, carry `cf` out of the top bit and carry `af` out of bit 3. -/
structure ArithFlags (w r : Nat) (exact : Int) (cf af : Bool) (f : Flags) : Prop where
  cf : f.cf = cf
  of : f.of = !decide (FitsSigned w exact)
  af : f.af = af
  zf : f.zf = decide (r = 0)
  sf : f.sf = r.testBit (w - 1)
  pf : f.pf = evenParity r

/-- The layout of `auxbits`: `cout i` is the carry out of bit `i` of an operation of width `w`. -/
structure AuxLayout (w : Nat) (cout : Nat → Bool) (auxbits : BitVec 32) : Prop where
  top : auxbits.getLsbD 31 = cout (w - 1)
  belowTop : auxbits.getLsbD 30 = cout (w - 2)
  nibble : auxbits.getLsbD 3 = cout 3
  signDelta : auxbits.getLsbD 0 = false
  parityDelta : ∀ j, 8 ≤ j → j < 16 → auxbits.getLsbD j = false

namespace Flags

variable {i : Nat}

theorem and_one_shiftLeft_ne_zero {n : Nat} (x : BitVec n) (hi : i < n) :
    (x &&& 1#n <<< i != 0) = x.getLsbD i := by
  rw [← twoPow_eq, and_twoPow]
  split
  · next hbit =>
    rw [hbit, bne_iff_ne]
    intro hzero
    have hself : (BitVec.twoPow n i).getLsbD i = true := by simp [hi]
    rw [hzero] at hself
    simp at hself
  · next hbit => simpa using hbit

theorem and_one_ne_zero (x : BitVec 32) : (x &&& 1 != 0) = x.getLsbD 0 := by
  rw [← and_one_shiftLeft_ne_zero x (i := 0) (by decide), shiftLeft_zero]
  rfl

theorem calcLazyPfValue_eq_evenParity (value : BitVec 8) :
    calcLazyPfValue value = evenParity value.toNat := by
  revert value
  decide

theorem evenParity_mod_byte (value : Nat) : evenParity (value % 256) = evenParity value := by
  have hbits : ∀ i ∈ List.range 8, (value % 256).testBit i = value.testBit i := by
    intro i hi
    have hlt : i < 8 := List.mem_range.mp hi
    rw [show 256 = 2 ^ 8 by rfl, Nat.testBit_mod_two_pow]
    simp [hlt]
  rw [evenParity, evenParity, List.countP_congr]
  intro i hi
  rw [hbits i hi]

variable {f : Flags} {result : BitVec 64} {auxbits : BitVec 32}

theorem storeOszapc_cf : (f.storeOszapc result auxbits).cf = auxbits.getLsbD 31 := by
  rw [cf_eq, storeOszapc_fCf]
  exact and_one_shiftLeft_ne_zero auxbits (by decide)

theorem storeOszapc_af : (f.storeOszapc result auxbits).af = auxbits.getLsbD 3 := by
  rw [← and_one_shiftLeft_ne_zero auxbits (i := 3) (by decide)]
  rfl

theorem storeOszapc_of :
    (f.storeOszapc result auxbits).of = (auxbits.getLsbD 31 ^^ auxbits.getLsbD 30) := by
  have hlow : BitVec.carry 30 auxbits lfMaskPo false = false := by
    have hmask : lfMaskPo.toNat % 2 ^ 30 = 0 := by decide
    simp only [BitVec.carry, hmask, decide_eq_false_iff_not]
    have := Nat.mod_lt auxbits.toNat (Nat.two_pow_pos 30)
    simp only [Bool.toNat_false]
    omega
  have hsum : (auxbits + lfMaskPo).getLsbD 31 = (auxbits.getLsbD 31 ^^ auxbits.getLsbD 30) := by
    rw [getLsbD_add (by decide), carry_succ, hlow]
    have hbit31 : lfMaskPo.getLsbD 31 = false := by decide
    have hbit30 : lfMaskPo.getLsbD 30 = true := by decide
    rw [hbit31, hbit30]
    simp
  rw [← hsum]
  rw [of_eq, storeOszapc_fOf, and_one_ne_zero, getLsbD_ushiftRight]

theorem storeOszapc_sf (hdelta : auxbits.getLsbD 0 = false) :
    (f.storeOszapc result auxbits).sf = result.getLsbD 63 := by
  rw [sf_eq, storeOszapc_fSf, and_one_ne_zero, getLsbD_xor, getLsbD_setWidth,
    getLsbD_ushiftRight, getLsbD_ushiftRight, hdelta]
  simp

theorem storeOszapc_pf (hdelta : ∀ j, 8 ≤ j → j < 16 → auxbits.getLsbD j = false) :
    (f.storeOszapc result auxbits).pf = evenParity result.toNat := by
  have hbyte : ((result.setWidth 32 ^^^ (auxbits >>> 8)) &&& 0xff).setWidth 8 =
      result.setWidth 8 := by
    apply eq_of_getLsbD_eq
    intro j hj
    have hmask : (0xff : BitVec 32).getLsbD j = true := by
      revert j
      decide
    rw [getLsbD_setWidth, getLsbD_and, getLsbD_xor, getLsbD_setWidth,
      getLsbD_ushiftRight, hdelta (8 + j) (by omega) (by omega), hmask,
      getLsbD_setWidth]
    have hj32 : j < 32 := by omega
    simp [hj, hj32]
  change calcLazyPfValue (((result.setWidth 32 ^^^ (auxbits >>> 8)) &&& 0xff).setWidth 8) = _
  rw [hbyte, calcLazyPfValue_eq_evenParity, toNat_setWidth]
  exact evenParity_mod_byte result.toNat

section SignExtend

variable {k : Nat} (r : BitVec (k + 1))

theorem getLsbD_signExtend_low (hk : k + 1 ≤ 64) (hi : i < k + 1) :
    (r.signExtend 64).getLsbD i = r.getLsbD i := by
  have hi64 : i < 64 := by omega
  rw [getLsbD_signExtend]
  simp [hi, hi64]

theorem signExtend_eq_zero_iff (hk : k + 1 ≤ 64) : r.signExtend 64 = 0 ↔ r.toNat = 0 := by
  constructor
  · intro hzero
    have : r = 0 := by
      apply eq_of_getLsbD_eq
      intro i hi
      rw [← getLsbD_signExtend_low r hk hi, hzero]
      simp
    simp [this]
  · intro hzero
    have hr : r = 0#(k + 1) := eq_of_toNat_eq hzero
    rw [hr]
    apply eq_of_getLsbD_eq
    intro i hi
    simp [getLsbD_signExtend]

theorem getLsbD_signExtend_top (hk : k + 1 ≤ 64) :
    (r.signExtend 64).getLsbD 63 = r.toNat.testBit k := by
  simp only [getLsbD_signExtend, testBit_toNat]
  by_cases h63 : 63 < k + 1
  · have hk63 : k = 63 := by omega
    simp [hk63]
  · simp [h63, msb_eq_getLsbD_last]

theorem evenParity_signExtend (hk : 8 ≤ k + 1) (hk' : k + 1 ≤ 64) :
    evenParity (r.signExtend 64).toNat = evenParity r.toNat := by
  rw [evenParity, evenParity, List.countP_congr]
  intro i hi
  have hlt : i < 8 := List.mem_range.mp hi
  rw [testBit_toNat, testBit_toNat, getLsbD_signExtend_low r hk' (by omega)]

end SignExtend

theorem storeOszapc_arithFlags {k : Nat} (hk : 8 ≤ k + 1) (hk' : k + 1 ≤ 64) {r : BitVec (k + 1)}
    {cout : Nat → Bool} {exact : Int} (hlayout : AuxLayout (k + 1) cout auxbits)
    (hexact : (cout k ^^ cout (k - 1)) = !decide (FitsSigned (k + 1) exact)) :
    ArithFlags (k + 1) r.toNat exact (cout k) (cout 3)
      (f.storeOszapc (r.signExtend 64) auxbits) := by
  constructor
  · rw [storeOszapc_cf]
    exact hlayout.top
  · rw [storeOszapc_of, hlayout.top, hlayout.belowTop]
    exact hexact
  · rw [storeOszapc_af]
    exact hlayout.nibble
  · rw [zf_eq, storeOszapc_fZf, Bool.eq_iff_iff, beq_iff_eq, decide_eq_true_iff]
    exact signExtend_eq_zero_iff r hk'
  · rw [storeOszapc_sf hlayout.signDelta, Nat.add_sub_cancel]
    exact getLsbD_signExtend_top r hk'
  · rw [storeOszapc_pf hlayout.parityDelta]
    exact evenParity_signExtend r hk hk'

theorem getLsbD_lfMaskAf (i : Nat) : lfMaskAf.getLsbD i = decide (i = 3) := by
  rw [lfMaskAf, ← twoPow_eq, getLsbD_twoPow]
  simp [eq_comm]

theorem getLsbD_deltaMask (i : Nat) :
    (lfMaskPdb ||| lfMaskSd).getLsbD i = (decide (8 ≤ i ∧ i < 16) || decide (i = 0)) := by
  by_cases hi : i < 32
  · revert i
    decide
  · rw [getLsbD_of_ge _ _ (by omega)]
    symm
    simp only [Bool.or_eq_false_iff, decide_eq_false_iff_not]
    omega

section Layout

variable {cout : Nat → Bool} {carries : BitVec 64}

theorem auxLayout64 (hbits : ∀ i, i < 64 → carries.getLsbD i = cout i) : AuxLayout 64 cout
      (((carries &&& lfMaskAf.setWidth 64) ||| ((carries >>> 62) <<< 30)).setWidth 32) := by
  have hbit : ∀ i, i < 32 →
      (((carries &&& lfMaskAf.setWidth 64) ||| ((carries >>> 62) <<< 30)).setWidth 32).getLsbD i =
        (carries.getLsbD i && decide (i = 3) || decide (30 ≤ i) && carries.getLsbD (i + 32)) := by
    intro i hi
    have hi64 : i < 64 := by omega
    simp only [getLsbD_setWidth, getLsbD_or, getLsbD_and,
      getLsbD_shiftLeft, getLsbD_ushiftRight, getLsbD_lfMaskAf, hi, hi64,
      decide_true, Bool.true_and]
    by_cases h30 : 30 ≤ i
    · simp [h30, show ¬ i < 30 by omega, show 62 + (i - 30) = i + 32 by omega]
    · simp [h30, show i < 30 by omega]
  constructor
  · simp only [hbit 31 (by decide), ← hbits 63 (by decide)]
    simp
  · simp only [hbit 30 (by decide), ← hbits 62 (by decide)]
    simp
  · simp only [hbit 3 (by decide), ← hbits 3 (by decide)]
    simp
  · simp only [hbit 0 (by decide)]
    simp
  · intro j hj hj'
    rw [hbit j (by omega)]
    simp [show j ≠ 3 by omega, show ¬ 30 ≤ j by omega]

theorem auxLayout32 (hbits : ∀ i, i < 32 → carries.getLsbD i = cout i) :
    AuxLayout 32 cout (carries.setWidth 32 &&& ~~~(lfMaskPdb ||| lfMaskSd)) := by
  have hbit : ∀ i, i < 32 → (carries.setWidth 32 &&& ~~~(lfMaskPdb ||| lfMaskSd)).getLsbD i =
      (cout i && !(decide (8 ≤ i ∧ i < 16) || decide (i = 0))) := by
    intro i hi
    rw [getLsbD_and, getLsbD_not, getLsbD_deltaMask, getLsbD_setWidth, hbits i hi]
    simp [hi]
  constructor
  · rw [hbit 31 (by decide)]
    simp
  · rw [hbit 30 (by decide)]
    simp
  · rw [hbit 3 (by decide)]
    simp
  · rw [hbit 0 (by decide)]
    simp
  · intro j hj hj'
    rw [hbit j (by omega)]
    simp [hj, hj']

theorem auxLayout_shiftLeft {w s : Nat} (hs : w + s = 32) (hw : 4 ≤ w) (hs16 : 16 ≤ s)
    (hbits : ∀ i, i < w → carries.getLsbD i = cout i) :
    AuxLayout w cout ((carries.setWidth 32 &&& lfMaskAf) ||| (carries.setWidth 32 <<< s)) := by
  have hbit : ∀ i, i < 32 →
      ((carries.setWidth 32 &&& lfMaskAf) ||| (carries.setWidth 32 <<< s)).getLsbD i =
        (cout 3 && decide (i = 3) || decide (s ≤ i) && cout (i - s)) := by
    intro i hi
    have hlow : (carries.getLsbD i && decide (i = 3)) = (cout 3 && decide (i = 3)) := by
      by_cases h3 : i = 3
      · subst h3
        rw [hbits 3 (by omega)]
      · simp [h3]
    simp only [getLsbD_or, getLsbD_and, getLsbD_shiftLeft,
      getLsbD_setWidth, getLsbD_lfMaskAf, hi, hlow, decide_true, Bool.true_and]
    by_cases hsi : s ≤ i
    · simp [hsi, show ¬ i < s by omega, show i - s < 32 by omega, hbits (i - s) (by omega)]
    · simp [hsi, show i < s by omega]
  constructor
  · rw [hbit 31 (by decide)]
    simp [show s ≤ 31 by omega, show 31 - s = w - 1 by omega]
  · rw [hbit 30 (by decide)]
    simp [show s ≤ 30 by omega, show 30 - s = w - 2 by omega]
  · rw [hbit 3 (by decide)]
    simp [show ¬ s ≤ 3 by omega]
  · rw [hbit 0 (by decide)]
    simp [show s ≠ 0 by omega]
  · intro j hj hj'
    rw [hbit j (by omega)]
    simp [show j ≠ 3 by omega, show ¬ s ≤ j by omega]

end Layout

/-! ### The carry vectors -/

variable {w : Nat}

theorem getLsbD_addCoutVec (hw : w ≤ 64) (x y : BitVec w) (c : Bool) (hi : i < w) :
    (addCoutVec (x.setWidth 64) (y.setWidth 64) ((x + y + carryIn w c).setWidth 64)).getLsbD i =
      BitVec.carry (i + 1) x y c := by
  have hi64 : i < 64 := by omega
  rw [carry_succ_eq_of_sum x y c hi]
  simp only [addCoutVec, carryIn, getLsbD_or, getLsbD_and, getLsbD_not,
    getLsbD_setWidth, hi64, decide_true, Bool.true_and]

theorem getLsbD_subCoutVec (hw : w ≤ 64) (x y : BitVec w) (c : Bool) (hi : i < w) :
    (subCoutVec (x.setWidth 64) (y.setWidth 64) ((x - y - carryIn w c).setWidth 64)).getLsbD i =
      borrow (i + 1) x y c := by
  have hi64 : i < 64 := by omega
  rw [borrow_succ_eq_of_difference x y c hi]
  simp only [subCoutVec, carryIn, getLsbD_or, getLsbD_and, getLsbD_xor,
    getLsbD_not, getLsbD_setWidth, hi64, decide_true, Bool.true_and]

/-! ### The outcome at each width -/

/-- What an addition of width `w` returns and the flags it leaves. -/
structure AddOutcome (w a b : Nat) (c : Bool) (p : BitVec 64 × Flags) : Prop where
  result : p.1.toNat = (a + b + c.toNat) % 2 ^ w
  flags : ArithFlags w p.1.toNat (signed w a + signed w b + c.toNat)
    (decide (2 ^ w ≤ a + b + c.toNat)) (decide (16 ≤ a % 16 + b % 16 + c.toNat)) p.2

/-- What a subtraction of width `w` returns and the flags it leaves. -/
structure SubOutcome (w a b : Nat) (c : Bool) (p : BitVec 64 × Flags) : Prop where
  result : (p.1.toNat : Int) = ((a : Int) - b - c.toNat) % 2 ^ w
  flags : ArithFlags w p.1.toNat (signed w a - signed w b - c.toNat)
    (decide (a < b + c.toNat)) (decide (a % 16 < b % 16 + c.toNat)) p.2

theorem toNat_add_carryIn (x y : BitVec w) (c : Bool) :
    (x + y + carryIn w c).toNat = (x.toNat + y.toNat + c.toNat) % 2 ^ w := by
  simp [carryIn]

theorem toNat_sub_carryIn (x y : BitVec w) (c : Bool) :
    ((x - y - carryIn w c).toNat : Int) = ((x.toNat : Int) - y.toNat - c.toNat) % 2 ^ w := by
  have hsub : ∀ u v : BitVec w, ((u - v).toNat : Int) = ((u.toNat : Int) - v.toNat) % 2 ^ w := by
    intro u v
    have hv := v.isLt
    rw [toNat_sub]
    push_cast [Nat.le_of_lt hv]
    rw [← Int.add_mul_emod_self_left ((u.toNat : Int) - v.toNat) (2 ^ w) 1]
    congr 1
    ring
  have hc : ((carryIn w c).toNat : Int) = (c.toNat : Int) % 2 ^ w := by
    simp [carryIn]
  rw [hsub, hsub, hc, Int.emod_sub_emod, Int.sub_emod_emod]

section Spec

variable {k : Nat} {f : Flags} {x y : BitVec (k + 1)} {c : Bool} {auxbits : BitVec 32}

theorem toNat_setWidth_64 (hk' : k + 1 ≤ 64) (r : BitVec (k + 1)) :
    (r.setWidth 64).toNat = r.toNat := by
  rw [toNat_setWidth, Nat.mod_eq_of_lt]
  exact r.isLt.trans_le (Nat.pow_le_pow_right (by decide) hk')

theorem addOutcome_storeOszapc (hk : 8 ≤ k + 1) (hk' : k + 1 ≤ 64)
    (hlayout : AuxLayout (k + 1) (fun i => BitVec.carry (i + 1) x y c) auxbits) :
    AddOutcome (k + 1) x.toNat y.toNat c ((x + y + carryIn (k + 1) c).setWidth 64,
      f.storeOszapc ((x + y + carryIn (k + 1) c).signExtend 64) auxbits) := by
  have hexact := carry_xor_carry_eq_not_fits x y c
  rw [show BitVec.carry k x y c = BitVec.carry (k - 1 + 1) x y c by congr 1; omega] at hexact
  have hflags := storeOszapc_arithFlags (f := f) (r := x + y + carryIn (k + 1) c) hk hk' hlayout
    hexact
  constructor
  · rw [toNat_setWidth_64 hk', toNat_add_carryIn]
  · rw [toNat_setWidth_64 hk']
    simpa only [BitVec.carry, ge_iff_le, Nat.mod_eq_of_lt x.isLt, Nat.mod_eq_of_lt y.isLt,
      Nat.reduceAdd, Nat.reducePow] using hflags

theorem subOutcome_storeOszapc (hk : 8 ≤ k + 1) (hk' : k + 1 ≤ 64)
    (hlayout : AuxLayout (k + 1) (fun i => borrow (i + 1) x y c) auxbits) :
    SubOutcome (k + 1) x.toNat y.toNat c ((x - y - carryIn (k + 1) c).setWidth 64,
      f.storeOszapc ((x - y - carryIn (k + 1) c).signExtend 64) auxbits) := by
  have hexact := borrow_xor_borrow_eq_not_fits x y c
  rw [show borrow k x y c = borrow (k - 1 + 1) x y c by congr 1; omega] at hexact
  have hflags := storeOszapc_arithFlags (f := f) (r := x - y - carryIn (k + 1) c) hk hk' hlayout
    hexact
  constructor
  · rw [toNat_setWidth_64 hk', toNat_sub_carryIn]
  · rw [toNat_setWidth_64 hk']
    simpa only [borrow, Nat.mod_eq_of_lt x.isLt, Nat.mod_eq_of_lt y.isLt, Nat.reduceAdd,
      Nat.reducePow] using hflags

end Spec

theorem add8_outcome (f : Flags) (x y : BitVec 8) (c : Bool) :
    AddOutcome 8 x.toNat y.toNat c (f.add8 x y c true) :=
  addOutcome_storeOszapc (by decide) (by decide)
    (auxLayout_shiftLeft (by decide) (by decide) (by decide)
      fun _ hi => getLsbD_addCoutVec (by decide) x y c hi)

theorem add16_outcome (f : Flags) (x y : BitVec 16) (c : Bool) :
    AddOutcome 16 x.toNat y.toNat c (f.add16 x y c true) :=
  addOutcome_storeOszapc (by decide) (by decide)
    (auxLayout_shiftLeft (by decide) (by decide) (by decide)
      fun _ hi => getLsbD_addCoutVec (by decide) x y c hi)

theorem add32_outcome (f : Flags) (x y : BitVec 32) (c : Bool) :
    AddOutcome 32 x.toNat y.toNat c (f.add32 x y c true) :=
  addOutcome_storeOszapc (by decide) (by decide)
    (auxLayout32 fun _ hi => getLsbD_addCoutVec (by decide) x y c hi)

theorem add64_outcome (f : Flags) (x y : BitVec 64) (c : Bool) :
    AddOutcome 64 x.toNat y.toNat c (f.add64 x y c true) := by
  have hout := addOutcome_storeOszapc (k := 63) (f := f) (by decide) (by decide)
    (auxLayout64 fun _ hi => getLsbD_addCoutVec (by decide) x y c hi)
  rw [setWidth_eq, setWidth_eq, setWidth_eq, signExtend_eq] at hout
  exact hout

theorem sub8Borrow_outcome (f : Flags) (value1 value2 : BitVec 64) (c : Bool) :
    SubOutcome 8 (value1.setWidth 8).toNat (value2.setWidth 8).toNat c
      (f.sub8Borrow value1 value2 c) :=
  subOutcome_storeOszapc (by decide) (by decide)
    (auxLayout_shiftLeft (by decide) (by decide) (by decide)
      fun _ hi => getLsbD_subCoutVec (by decide) _ _ c hi)

theorem sub16Borrow_outcome (f : Flags) (value1 value2 : BitVec 64) (c : Bool) :
    SubOutcome 16 (value1.setWidth 16).toNat (value2.setWidth 16).toNat c
      (f.sub16Borrow value1 value2 c) :=
  subOutcome_storeOszapc (by decide) (by decide)
    (auxLayout_shiftLeft (by decide) (by decide) (by decide)
      fun _ hi => getLsbD_subCoutVec (by decide) _ _ c hi)

theorem sub32Borrow_outcome (f : Flags) (value1 value2 : BitVec 64) (c : Bool) :
    SubOutcome 32 (value1.setWidth 32).toNat (value2.setWidth 32).toNat c
      (f.sub32Borrow value1 value2 c) :=
  subOutcome_storeOszapc (by decide) (by decide)
    (auxLayout32 fun _ hi => getLsbD_subCoutVec (by decide) _ _ c hi)

theorem sub64Borrow_outcome (f : Flags) (value1 value2 : BitVec 64) (c : Bool) :
    SubOutcome 64 value1.toNat value2.toNat c (f.sub64Borrow value1 value2 c) := by
  have hout := subOutcome_storeOszapc (k := 63) (f := f) (by decide) (by decide)
    (auxLayout64 fun _ hi => getLsbD_subCoutVec (by decide) value1 value2 c hi)
  rw [setWidth_eq, setWidth_eq, setWidth_eq, signExtend_eq] at hout
  exact hout

theorem toNat_ofNat_of_lt {n : Nat} (hn : n < 2 ^ w) : (BitVec.ofNat w n).toNat = n := by
  rw [toNat_ofNat, Nat.mod_eq_of_lt hn]

variable {a b : Nat} (width : Width)

theorem addWidth_outcome (f : Flags) (c : Bool) (ha : a < 2 ^ width.bits)
    (hb : b < 2 ^ width.bits) : AddOutcome width.bits a b c (f.addWidth width a b c true) := by
  have hout : AddOutcome width.bits (BitVec.ofNat width.bits a).toNat
      (BitVec.ofNat width.bits b).toNat c (f.addWidth width a b c true) := by
    cases width with
    | byte => exact add8_outcome f _ _ c
    | word => exact add16_outcome f _ _ c
    | dword => exact add32_outcome f _ _ c
    | qword => exact add64_outcome f _ _ c
  rwa [toNat_ofNat_of_lt ha, toNat_ofNat_of_lt hb] at hout

theorem subBorrowWidth_outcome (f : Flags) (c : Bool) (ha : a < 2 ^ width.bits)
    (hb : b < 2 ^ width.bits) : SubOutcome width.bits a b c (f.subBorrowWidth width a b c) := by
  have hnarrow : ∀ n, n < 2 ^ width.bits → ((BitVec.ofNat 64 n).setWidth width.bits).toNat = n := by
    intro n hn
    have hle : 2 ^ width.bits ≤ 2 ^ 64 := by cases width <;> decide
    rw [toNat_setWidth, toNat_ofNat_of_lt (hn.trans_le hle), Nat.mod_eq_of_lt hn]
  have hout : SubOutcome width.bits ((BitVec.ofNat 64 a).setWidth width.bits).toNat
      ((BitVec.ofNat 64 b).setWidth width.bits).toNat c (f.subBorrowWidth width a b c) := by
    cases width with
    | byte => exact sub8Borrow_outcome f _ _ c
    | word => exact sub16Borrow_outcome f _ _ c
    | dword => exact sub32Borrow_outcome f _ _ c
    | qword =>
      have hout := sub64Borrow_outcome f (BitVec.ofNat 64 a) (BitVec.ofNat 64 b) c
      rwa [← setWidth_eq (BitVec.ofNat 64 a), ← setWidth_eq (BitVec.ofNat 64 b),
        setWidth_eq, setWidth_eq] at hout
  rwa [hnarrow a ha, hnarrow b hb] at hout

theorem subWidth_eq_subBorrowWidth (f : Flags) (a b : Nat) :
    f.subWidth width a b = f.subBorrowWidth width a b false := by
  have hzero : ∀ {w : Nat} (x y : BitVec w), x - y - carryIn w false = x - y := by
    intro w x y
    simp [carryIn]
  cases width <;>
    simp only [subWidth, subBorrowWidth, sub8, sub16, sub32, sub64, sub8Borrow, sub16Borrow,
      sub32Borrow, sub64Borrow, hzero]

structure SameArith (f g : Flags) : Prop where
  cf : f.cf = g.cf
  of : f.of = g.of
  af : f.af = g.af
  zf : f.zf = g.zf
  sf : f.sf = g.sf
  pf : f.pf = g.pf

theorem SameArith.symm {g : Flags} (hsame : SameArith f g) : SameArith g f :=
  ⟨hsame.cf.symm, hsame.of.symm, hsame.af.symm, hsame.zf.symm, hsame.sf.symm, hsame.pf.symm⟩

theorem SameArith.trans {g h : Flags} (h₁ : SameArith f g) (h₂ : SameArith g h) : SameArith f h :=
  ⟨h₁.cf.trans h₂.cf, h₁.of.trans h₂.of, h₁.af.trans h₂.af, h₁.zf.trans h₂.zf, h₁.sf.trans h₂.sf,
    h₁.pf.trans h₂.pf⟩

theorem sameArith_materializeLazy (f : Flags) : SameArith f.materializeLazy f := by
  rcases hkind : f.lazy.kind with _ | _ <;> constructor <;>
    simp [Flags.materializeLazy, hkind, clearLazy, LazyFlags.default, Flags.af, Flags.pf]

theorem sameArith_subWidth (f g : Flags) (a b : Nat) :
    SameArith (f.subWidth width a b).2 (g.subWidth width a b).2 := by
  cases width <;> exact ⟨rfl, rfl, rfl, rfl, rfl, rfl⟩

theorem subWidth_zf (f : Flags) (ha : a < 2 ^ width.bits)
    (hb : b < 2 ^ width.bits) : (f.subWidth width a b).2.zf = (a == b) := by
  have hout := subBorrowWidth_outcome width f false ha hb
  rw [subWidth_eq_subBorrowWidth, hout.flags.zf]
  have hresult := hout.result
  rw [Bool.toNat_false, Nat.cast_zero, sub_zero] at hresult
  have hzero : (f.subBorrowWidth width a b false).1.toNat = 0 ↔ a = b := by
    rw [← Int.natCast_eq_zero, hresult]
    constructor
    · intro hmod
      have hmod' : (a : Int) % (2 ^ width.bits : Nat) = (b : Int) % (2 ^ width.bits : Nat) :=
        Int.emod_eq_emod_iff_emod_sub_eq_zero.mpr (by exact_mod_cast hmod)
      rw [← Int.natCast_mod, ← Int.natCast_mod, Nat.mod_eq_of_lt ha, Nat.mod_eq_of_lt hb] at hmod'
      exact_mod_cast hmod'
    · rintro rfl
      rw [sub_self, Int.zero_emod]
  rw [Bool.eq_iff_iff, decide_eq_true_eq, hzero, beq_iff_eq]

theorem add_sub_outcome (width : Width) (f : Flags) (c : Bool) {a b : Nat}
    (ha : a < 2 ^ width.bits) (hb : b < 2 ^ width.bits) :
    AddOutcome width.bits a b c (f.addWidth width a b c true) ∧
      SubOutcome width.bits a b c (f.subBorrowWidth width a b c) ∧
      f.subWidth width a b = f.subBorrowWidth width a b false :=
  ⟨addWidth_outcome width f c ha hb, subBorrowWidth_outcome width f c ha hb,
    subWidth_eq_subBorrowWidth width f a b⟩

theorem add_sub_outcome_byte :
    (0x7f : Nat) < 2 ^ Width.byte.bits ∧ (1 : Nat) < 2 ^ Width.byte.bits ∧
      AddOutcome 8 0x7f 1 true (Flags.new.addWidth .byte 0x7f 1 true true) :=
  ⟨by decide, by decide, (add_sub_outcome .byte Flags.new true (by decide) (by decide)).1⟩

end Flags

end Mwemu.Arch
