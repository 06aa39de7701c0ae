import Mwemu.Arch.FlagsArith
import Mwemu.Arch.FlagsOps

/-!
# Rotations through the carry

RCL and RCR rotate the word of the carry flag and the operand. The two functions compute this
differently: RCR puts the pieces of the result together, RCL rotates an extended word with the carry
at its low end. Both are the rotation of `BitVec.cons cf x`.
-/

namespace Mwemu.Arch

open Option BitVec Nat

theorem Width.bits_cases (w : Width) : w.bits = 8 ∨ w.bits = 16 ∨ w.bits = 32 ∨ w.bits = 64 := by
  cases w <;> simp [Width.bits]

theorem Width.bits_pos (w : Width) : 0 < w.bits := by
  cases w <;> decide

theorem Width.bits_le (w : Width) : w.bits ≤ 64 := by
  cases w <;> decide

theorem Width.ones_eq (w : Width) : w.ones = (BitVec.allOnes w.bits).setWidth 64 := by
  cases w <;> rfl

theorem Width.getLsbD_ones (w : Width) (i : Nat) : w.ones.getLsbD i = decide (i < w.bits) := by
  have hle := w.bits_le
  rw [w.ones_eq, getLsbD_setWidth, getLsbD_allOnes]
  by_cases hi : i < w.bits
  · simp [hi, show i < 64 by omega]
  · simp [hi]

/-- The handlers mask the count to five bits, and to six for a qword. -/
theorem Width.count_eq (w : Width) (value : BitVec 64) :
    w.count value = value.toNat % if w = .qword then 64 else 32 := by
  rw [Width.count, toNat_and]
  cases w with
  | qword => exact Nat.and_two_pow_sub_one_eq_mod value.toNat 6
  | byte | word | dword => exact Nat.and_two_pow_sub_one_eq_mod value.toNat 5

theorem Width.count_lt (w : Width) (value : BitVec 64) : w.count value < max 32 w.bits := by
  have hle : w.count value ≤ w.countMask.toNat := by
    unfold Width.count
    rw [toNat_and]
    exact and_le_right
  cases w <;> exact lt_of_le_of_lt hle (by decide)

namespace Flags

variable {n k : Nat} (x : BitVec n) (f : Flags)

theorem hostCheck_of_lt (hk : k < n) : hostCheck n k = true := by
  simpa [hostCheck] using hk

theorem shlBy_host (hk : k < n) : shlBy hostCheck x k = some (x <<< k) :=
  if_pos (hostCheck_of_lt hk)

theorem shrBy_host (hk : k < n) : shrBy hostCheck x k = some (x >>> k) :=
  if_pos (hostCheck_of_lt hk)

theorem onesBy_host (w : Width) : onesBy hostCheck w = some w.ones := by
  cases w <;> rfl

theorem getLsbD_carryIn (n : Nat) (c : Bool) (i : Nat) :
    (carryIn n c).getLsbD i = (c && decide (i = 0) && decide (i < n)) := by
  unfold carryIn
  rw [getLsbD_setWidth, getLsbD_ofBool]
  cases c <;> simp [Bool.and_comm]

theorem and_one_bne (n : Nat) (x : BitVec (n + 1)) : (x &&& 1 != 0) = x.getLsbD 0 := by
  have hone : (1 : BitVec (n + 1)) = 1#(n + 1) <<< 0 := by simp
  rw [hone]
  exact and_one_shiftLeft_ne_zero x (succ_pos n)

/-! ### The functions without their checks -/

/-- The pieces of RCR: the operand moves down, the carry above it, the bits that left above that. -/
def rcrPieces (cf : Bool) (value0 : BitVec 64) (count : Nat) (w : Width) : BitVec 64 :=
  ((value0 >>> count) ||| (carryIn 64 cf <<< (w.bits - count)) |||
    (value0 <<< (w.bits + 1 - count))) &&& w.ones

def rcr (f : Flags) (value0 value1 : BitVec 64) (w : Width) : BitVec 64 × Flags :=
  let count := w.count value1 % (w.bits + 1)
  let res := if count = 0 then value0 &&& w.ones else rcrPieces f.fCf value0 count w
  (res, { f with
    fCf := if count = 0 then f.fCf else value0.getLsbD (count - 1)
    fOf := if count = 1 then (res ^^^ (res <<< 1)).getLsbD (w.bits - 1) else f.fOf })

def hostBits : Width → Nat
  | .qword => 128
  | _ => 64

def rclRotated {n : Nat} (cf : Bool) (operand : BitVec n) (count sz : Nat) : BitVec n :=
  let extended := (operand <<< 1) ||| carryIn n cf
  ((extended <<< count) ||| (extended >>> (sz + 1 - count))) &&& ((1#n <<< (sz + 1)) - 1)

def rcl (f : Flags) (value0 value1 : BitVec 64) (w : Width) : BitVec 64 × Flags :=
  let count := w.count value1 % (w.bits + 1)
  if count = 0 then (value0 &&& w.ones, f)
  else
    let rotated := rclRotated f.fCf ((value0 &&& w.ones).setWidth (hostBits w)) count w.bits
    let res := (rotated >>> 1).setWidth 64 &&& w.ones
    (res, { f with
      fCf := rotated.getLsbD 0
      fOf := if count = 1 then rotated.getLsbD 0 ^^ res.getLsbD (w.bits - 1) else f.fOf })

theorem count_mod_lt (w : Width) (value1 : BitVec 64) :
    w.count value1 % (w.bits + 1) ≤ w.bits ∧ w.count value1 % (w.bits + 1) < 64 := by
  have hmod : w.count value1 % (w.bits + 1) < w.bits + 1 := mod_lt _ (succ_pos _)
  have hle := mod_le (w.count value1) (w.bits + 1)
  have hlt := w.count_lt value1
  rcases w.bits_cases with h | h | h | h <;> omega

theorem rcrPieces_one (cf : Bool) (value0 : BitVec 64) (w : Width) : rcrPieces cf value0 1 w =
      ((value0 >>> 1) ||| (carryIn 64 cf <<< (w.bits - 1))) &&& w.ones := by
  unfold rcrPieces
  apply eq_of_getLsbD_eq
  intro i hi
  simp only [getLsbD_and, getLsbD_or, w.getLsbD_ones, getLsbD_shiftLeft]
  by_cases hlt : i < w.bits
  · simp [hlt]
  · simp [hlt]

theorem rcrBy_host (value0 value1 : BitVec 64) (w : Width) :
    rcrBy hostCheck f value0 value1 w = some (f.rcr value0 value1 w) := by
  obtain ⟨hbits, hcount⟩ := count_mod_lt w value1
  have hpos := w.bits_pos
  have hle := w.bits_le
  unfold rcrBy rcr
  simp only [onesBy_host, bind_eq_bind, bind_some]
  generalize w.count value1 % (w.bits + 1) = count at hbits hcount
  match count, hbits, hcount with
  | 0, _, _ => rfl
  | 1, _, _ =>
    simp (disch := omega) only [shrBy_host, shlBy_host, bind_some, map_some,
      rcrPieces_one, and_one_bne, getLsbD_ushiftRight, if_true, if_false,
      one_ne_zero, add_zero]
  | count + 2, hbits, hcount =>
    simp (disch := omega) only [shrBy_host, shlBy_host, bind_some, map_some,
      rcrPieces, and_one_bne, getLsbD_ushiftRight, if_neg, add_zero]

variable {count : Nat}

theorem rclWord_host {sz : Nat} (value0 pow : BitVec n) (hsz : sz + 1 < n)
    (hpos : 0 < count) (hcount : count ≤ sz) : rclWord hostCheck f value0 pow count sz =
      some ((rclRotated f.fCf (value0 &&& pow) count sz >>> 1) &&& pow, { f with
        fCf := (rclRotated f.fCf (value0 &&& pow) count sz).getLsbD 0
        fOf := if count = 1 then (rclRotated f.fCf (value0 &&& pow) count sz).getLsbD 0 ^^
            ((rclRotated f.fCf (value0 &&& pow) count sz >>> 1) &&& pow).getLsbD (sz - 1)
          else f.fOf }) := by
  obtain ⟨m, rfl⟩ : ∃ m, n = m + 1 := ⟨n - 1, by omega⟩
  unfold rclWord rclRotated
  simp (disch := omega) only [shlBy_host, shrBy_host, bind_eq_bind, bind_some,
    map_some, and_one_bne, getLsbD_ushiftRight]
  split <;> rfl

variable {w : Width}

theorem rclBy_host_narrow (value0 : BitVec 64) (hw : w ≠ .qword) (hpos : 0 < count)
    (hcount : count ≤ w.bits) : ((shlBy hostCheck 1#64 w.bits).map (· - 1)).bind
        (fun pow => rclWord hostCheck f value0 pow count w.bits) =
      some ((rclRotated f.fCf (value0 &&& w.ones) count w.bits >>> 1) &&& w.ones, { f with
        fCf := (rclRotated f.fCf (value0 &&& w.ones) count w.bits).getLsbD 0
        fOf := if count = 1 then (rclRotated f.fCf (value0 &&& w.ones) count w.bits).getLsbD 0 ^^
            ((rclRotated f.fCf (value0 &&& w.ones) count w.bits >>> 1) &&&
              w.ones).getLsbD (w.bits - 1)
          else f.fOf }) := by
  have hpow : (shlBy hostCheck 1#64 w.bits).map (· - 1) = some w.ones := by
    rw [← onesBy_host, onesBy, if_neg hw]
  have hlt : w.bits + 1 < 64 := by
    cases w with
    | byte => decide
    | word => decide
    | dword => decide
    | qword => exact absurd rfl hw
  rw [hpow, bind_some, rclWord_host f value0 w.ones hlt hpos hcount]

theorem rclBy_host (value0 value1 : BitVec 64) (w : Width) :
    rclBy hostCheck f value0 value1 w = some (f.rcl value0 value1 w) := by
  obtain ⟨hbits, hcount⟩ := count_mod_lt w value1
  unfold rclBy rcl
  simp only [onesBy_host, bind_eq_bind, bind_some]
  generalize w.count value1 % (w.bits + 1) = count at hbits hcount
  split
  · rfl
  · next hne =>
    have hpos : 0 < count := pos_of_ne_zero hne
    cases w with
    | qword =>
      have hword := rclWord_host f (value0.setWidth 128) 0xffffffffffffffff
        (show 64 + 1 < 128 by decide) hpos hbits
      have hoperand : value0.setWidth 128 &&& 0xffffffffffffffff =
          (value0 &&& Width.qword.ones).setWidth 128 := by
        rw [setWidth_and]
        rfl
      have hres : ∀ x : BitVec 128, (x &&& 0xffffffffffffffff).setWidth 64 =
          x.setWidth 64 &&& Width.qword.ones :=
        fun _ => setWidth_and
      have htop : ∀ x : BitVec 128, x.getLsbD (64 - 1) = (x.setWidth 64).getLsbD (64 - 1) := by
        intro x
        rw [getLsbD_setWidth]
        rfl
      rw [if_pos rfl, hword, bind_some, hoperand]
      simp only [htop, hres]
      rfl
    | byte =>
      rw [if_neg (by decide), rclBy_host_narrow f value0 (by decide) hpos hbits]
      simp only [hostBits, setWidth_eq]
      rfl
    | word =>
      rw [if_neg (by decide), rclBy_host_narrow f value0 (by decide) hpos hbits]
      simp only [hostBits, setWidth_eq]
      rfl
    | dword =>
      rw [if_neg (by decide), rclBy_host_narrow f value0 (by decide) hpos hbits]
      simp only [hostBits, setWidth_eq]
      rfl

/-! ### The rotation -/

def carryWord (w : Width) (cf : Bool) (x : BitVec w.bits) : BitVec (w.bits + 1) :=
  BitVec.cons cf x

def carryCount (w : Width) (value1 : BitVec 64) : Nat :=
  (value1.toNat % if w = .qword then 64 else 32) % (w.bits + 1)

theorem getLsbD_setWidth_operand (x : BitVec w.bits) (i : Nat) :
    (x.setWidth 64).getLsbD i = x.getLsbD i := by
  have hle := w.bits_le
  rw [getLsbD_setWidth]
  by_cases hi : i < 64
  · simp [hi]
  · rw [getLsbD_of_ge x i (by omega), Bool.and_false]

theorem getLsbD_rcrPieces (cf : Bool) (x : BitVec w.bits) {i : Nat} (hpos : 0 < count)
    (hcount : count ≤ w.bits) (hi : i < w.bits) : (rcrPieces cf (x.setWidth 64) count w).getLsbD i =
      ((carryWord w cf x).rotateRight count).getLsbD i := by
  have hle := w.bits_le
  have hi64 : i < 64 := by omega
  unfold rcrPieces carryWord
  rw [getLsbD_rotateRight_of_lt (by omega)]
  simp only [getLsbD_and, getLsbD_or, getLsbD_ushiftRight,
    getLsbD_shiftLeft, w.getLsbD_ones, getLsbD_setWidth_operand, getLsbD_carryIn,
    getLsbD_cons, hi, hi64, decide_true, Bool.and_true, Bool.true_and]
  -- Below the carry the operand moves down, above it the bits that left come back in.
  rcases Nat.lt_trichotomy (count + i) w.bits with hlt | heq | hgt
  · simp [show i < w.bits + 1 - count by omega, show count + i ≠ w.bits by omega,
      show i < w.bits - count by omega]
  · simp [show i < w.bits + 1 - count by omega, heq, show ¬ i < w.bits - count by omega,
      show i - (w.bits - count) = 0 by omega]
  · simp [show ¬ i < w.bits + 1 - count by omega, show ¬ i < w.bits - count by omega,
      show i - (w.bits - count) ≠ 0 by omega, show i < w.bits + 1 by omega,
      show i - (w.bits + 1 - count) ≠ w.bits by omega,
      getLsbD_of_ge x (count + i) (by omega)]

theorem getLsbD_one_shiftLeft_sub_one {m : Nat} (hm : m < n) (i : Nat) :
    ((1#n <<< m) - 1).getLsbD i = decide (i < m) := by
  have hone : (1 : BitVec n).toNat = 1 := toNat_one (by omega)
  have hpow : (1#n <<< m).toNat = 2 ^ m := by
    rw [← twoPow_eq, toNat_twoPow_of_lt hm]
  have hsub : ((1#n <<< m) - 1).toNat = 2 ^ m - 1 := by
    rw [toNat_sub_of_le, hpow, hone]
    rw [le_def, hpow, hone]
    exact Nat.one_le_two_pow
  rw [← testBit_toNat, hsub, testBit_two_pow_sub_one]

theorem getLsbD_extended {m : Nat} (cf : Bool) (x : BitVec m) (hn : m < n) {j : Nat} (hj : j < n) :
    ((x.setWidth n <<< 1) ||| carryIn n cf).getLsbD j =
      if j = 0 then cf else x.getLsbD (j - 1) := by
  rw [getLsbD_or, getLsbD_shiftLeft, getLsbD_carryIn, getLsbD_setWidth]
  by_cases hzero : j = 0
  · simp [hzero, show 0 < n by omega]
  · simp [hzero, hj, show ¬ j < 1 by omega, show j - 1 < n by omega]

theorem getLsbD_rclRotated (cf : Bool) (x : BitVec w.bits) (hn : w.bits + 1 < n) {i : Nat}
    (hpos : 0 < count) (hcount : count ≤ w.bits) (hi : i ≤ w.bits) :
    (rclRotated cf (x.setWidth n) count w.bits).getLsbD i = if i = 0 then
      ((carryWord w cf x).rotateLeft count).getLsbD w.bits
      else ((carryWord w cf x).rotateLeft count).getLsbD (i - 1) := by
  unfold rclRotated carryWord
  rw [getLsbD_and, getLsbD_one_shiftLeft_sub_one (by omega), getLsbD_or,
    getLsbD_shiftLeft, getLsbD_ushiftRight]
  rw [getLsbD_rotateLeft_of_le (by omega), getLsbD_rotateLeft_of_le (by omega)]
  simp only [getLsbD_cons]
  by_cases hlt : i < count
  · -- The bits that left at the top come back in, the highest one as the carry.
    rw [getLsbD_extended cf x (by omega) (show w.bits + 1 - count + i < n by omega),
      if_neg (by omega), show w.bits + 1 - count + i - 1 = w.bits - count + i by omega]
    by_cases hzero : i = 0
    · simp [hzero, hpos, show ¬ w.bits < count by omega, show w.bits - count ≠ w.bits by omega]
    · simp [hlt, hzero, show i - 1 < count by omega, show i < w.bits + 1 by omega,
        show w.bits + 1 - count + (i - 1) = w.bits - count + i by omega,
        show w.bits - count + i ≠ w.bits by omega]
  have hout : ((x.setWidth n <<< 1) ||| carryIn n cf).getLsbD (w.bits + 1 - count + i) = false := by
    by_cases hin : w.bits + 1 - count + i < n
    · rw [getLsbD_extended cf x (by omega) hin, if_neg (by omega)]
      exact getLsbD_of_ge _ _ (by omega)
    · exact getLsbD_of_ge _ _ (by omega)
  rw [hout, getLsbD_extended cf x (by omega) (show i - count < n by omega)]
  by_cases heq : i = count
  · simp [heq, show count ≠ 0 by omega, show count - 1 < count by omega, show count < n by omega,
      show w.bits + 1 - count + (count - 1) = w.bits by omega, show count < w.bits + 1 by omega]
  · simp [hlt, show i ≠ 0 by omega, show ¬ i - 1 < count by omega, show i < n by omega,
      show i - count ≠ 0 by omega, show i < w.bits + 1 by omega, show i - 1 < w.bits + 1 by omega,
      show i - 1 - count ≠ w.bits by omega, show i - count - 1 = i - 1 - count by omega]

/-- The value and the carry after a rotation are those of the rotated word. -/
structure RotatesTo (w : Width) (word : BitVec (w.bits + 1)) (out : BitVec 64 × Flags) : Prop where
  value : out.1 = (word.setWidth w.bits).setWidth 64
  carry : out.2.cf = word.getLsbD w.bits

theorem RotatesTo.eq_carryWord {word : BitVec (w.bits + 1)} {out : BitVec 64 × Flags}
    (h : RotatesTo w word out) : word = carryWord w out.2.cf (word.setWidth w.bits) := by
  apply eq_of_getLsbD_eq
  intro i hi
  unfold carryWord
  rw [getLsbD_cons, h.carry, getLsbD_setWidth]
  by_cases heq : i = w.bits
  · simp [heq]
  · simp [heq, show i < w.bits by omega]

theorem and_ones_operand (x : BitVec w.bits) : x.setWidth 64 &&& w.ones = x.setWidth 64 := by
  apply eq_of_getLsbD_eq
  intro i _
  rw [getLsbD_and, w.getLsbD_ones, getLsbD_setWidth_operand]
  by_cases hi : i < w.bits
  · simp [hi]
  · simp [hi, getLsbD_of_ge x i (by omega)]

theorem and_ones_eq {value : BitVec 64} {word : BitVec n}
    (hbits : ∀ i, i < w.bits → value.getLsbD i = word.getLsbD i) :
    value &&& w.ones = (word.setWidth w.bits).setWidth 64 := by
  apply eq_of_getLsbD_eq
  intro i _
  rw [getLsbD_and, w.getLsbD_ones, getLsbD_setWidth_operand, getLsbD_setWidth]
  by_cases hi : i < w.bits
  · simp [hi, hbits i hi]
  · simp [hi]

theorem rotatesTo_unrotated (w : Width) (f : Flags) (x : BitVec w.bits) :
    RotatesTo w (carryWord w f.cf x) (x.setWidth 64 &&& w.ones, f) := by
  refine ⟨and_ones_eq fun i hi => ?_, ?_⟩
  · rw [getLsbD_setWidth_operand, carryWord, getLsbD_cons, if_neg (by omega)]
  · rw [carryWord, getLsbD_cons, if_pos rfl]

theorem rotateLeft_zero : x.rotateLeft 0 = x := by
  simp [BitVec.rotateLeft, BitVec.rotateLeftAux, ushiftRight_eq_zero]

theorem rotateRight_zero : x.rotateRight 0 = x := by
  simp [BitVec.rotateRight, BitVec.rotateRightAux]

theorem rcr_rotatesTo (w : Width) (x : BitVec w.bits) (value1 : BitVec 64) :
    RotatesTo w ((carryWord w f.cf x).rotateRight (carryCount w value1))
      (f.rcr (x.setWidth 64) value1 w) := by
  obtain ⟨hcount, -⟩ := count_mod_lt w value1
  unfold carryCount rcr
  rw [← w.count_eq]
  generalize w.count value1 % (w.bits + 1) = count at hcount
  by_cases hzero : count = 0
  · subst hzero
    simp only [if_pos, rotateRight_zero]
    have hself := rotatesTo_unrotated w f x
    exact ⟨hself.value, hself.carry⟩
  have hpos : 0 < count := pos_of_ne_zero hzero
  simp only [if_neg hzero]
  constructor
  · refine and_ones_eq fun i hi => ?_
    have hpiece := getLsbD_rcrPieces f.fCf x hpos hcount hi
    rw [rcrPieces, getLsbD_and, w.getLsbD_ones, decide_eq_true hi, Bool.and_true] at hpiece
    exact hpiece
  change (x.setWidth 64).getLsbD (count - 1) = _
  rw [getLsbD_setWidth_operand, getLsbD_rotateRight_of_lt (by omega), carryWord]
  simp only [getLsbD_cons]
  simp [show ¬ w.bits < w.bits + 1 - count by omega,
    show w.bits - (w.bits + 1 - count) = count - 1 by omega,
    show count - 1 ≠ w.bits by omega]

theorem rcl_rotatesTo (w : Width) (x : BitVec w.bits) (value1 : BitVec 64) :
    RotatesTo w ((carryWord w f.cf x).rotateLeft (carryCount w value1))
      (f.rcl (x.setWidth 64) value1 w) := by
  obtain ⟨hcount, -⟩ := count_mod_lt w value1
  unfold carryCount rcl
  rw [← w.count_eq]
  generalize w.count value1 % (w.bits + 1) = count at hcount
  by_cases hzero : count = 0
  · subst hzero
    simp only [if_pos, rotateLeft_zero]
    exact rotatesTo_unrotated w f x
  have hpos : 0 < count := pos_of_ne_zero hzero
  have hhost : w.bits + 1 < hostBits w := by
    cases w <;> decide
  simp only [if_neg hzero, and_ones_operand]
  have hoperand : (x.setWidth 64).setWidth (hostBits w) = x.setWidth (hostBits w) := by
    apply eq_of_getLsbD_eq
    intro i hi
    rw [getLsbD_setWidth, getLsbD_setWidth_operand, getLsbD_setWidth]
  rw [hoperand]
  constructor
  · refine and_ones_eq fun i hi => ?_
    rw [getLsbD_setWidth, getLsbD_ushiftRight,
      getLsbD_rclRotated f.fCf x hhost hpos hcount (by omega), if_neg (by omega)]
    have hle := w.bits_le
    simp [show i < 64 by omega]
  · change (rclRotated f.fCf (x.setWidth (hostBits w)) count w.bits).getLsbD 0 = _
    rw [getLsbD_rclRotated f.fCf x hhost hpos hcount (zero_le _), if_pos rfl]
    rfl

theorem rotateRight_rotateLeft {r : Nat} (hr : r < n) :
    (x.rotateLeft r).rotateRight r = x := by
  apply eq_of_getLsbD_eq
  intro i hi
  rw [getLsbD_rotateRight_of_lt hr, getLsbD_rotateLeft_of_le hr, getLsbD_rotateLeft_of_le hr]
  by_cases hlt : i < n - r
  · simp [hlt, show ¬ r + i < r by omega, show r + i < n by omega]
  · simp [hlt, hi, show i - (n - r) < r by omega, show n - r + (i - (n - r)) = i by omega]

theorem carry_rotations (w : Width) (f : Flags) (x : BitVec w.bits) (value1 : BitVec 64) :
    ∃ left right back, rclBy hostCheck f (x.setWidth 64) value1 w = some left ∧
      RotatesTo w ((carryWord w f.cf x).rotateLeft (carryCount w value1)) left ∧
      rcrBy hostCheck f (x.setWidth 64) value1 w = some right ∧
      RotatesTo w ((carryWord w f.cf x).rotateRight (carryCount w value1)) right ∧
      rcrBy hostCheck left.2 left.1 value1 w = some back ∧
      back.1 = x.setWidth 64 ∧ back.2.cf = f.cf := by
  have hleft := rcl_rotatesTo f w x value1
  have hcount : carryCount w value1 < w.bits + 1 := mod_lt _ (succ_pos _)
  refine ⟨_, _, _, rclBy_host f _ value1 w, hleft, rcrBy_host f _ value1 w,
    rcr_rotatesTo f w x value1, rcrBy_host _ _ value1 w, ?_⟩
  -- The left rotation leaves the operand and the carry of its word, which RCR rotates back.
  have hback := rcr_rotatesTo (f.rcl (x.setWidth 64) value1 w).2 w
    (((carryWord w f.cf x).rotateLeft (carryCount w value1)).setWidth w.bits) value1
  rw [← hleft.eq_carryWord, ← hleft.value, rotateRight_rotateLeft _ hcount] at hback
  have hself := rotatesTo_unrotated w f x
  rw [and_ones_operand] at hself
  exact ⟨hback.value.trans hself.value.symm, hback.carry.trans hself.carry.symm⟩

/-- The 64-bit RCL by one shifts a 128-bit integer by 64. -/
theorem rcl_shifts_by_64 :
    rclBy (fun _ amount => decide (amount < 64)) Flags.new 1 1 .qword = none := by
  decide +kernel

end Flags

end Mwemu.Arch
