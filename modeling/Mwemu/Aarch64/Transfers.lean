import Mwemu.Aarch64.Operand
import Mwemu.Lib.HostInt
import Mwemu.Maps.WriteRange

/-!
# AArch64 loads and stores

`LDR`, `LDP`, `STR` and `STP` of general and vector registers. A precise instruction transfers all
its bytes and writes its base back if it may access each byte, and changes nothing otherwise. Only
the loads of general registers look at what the memory layer returns. A sum of addresses that leaves
`u64` is a panic, `none`.
-/

namespace Mwemu.Aarch64

open Mwemu.Lib

/-! ### The handlers -/

def SimdSizeCode.regBytes : SimdSizeCode → Nat
  | .b => 1
  | .h => 2
  | .s => 4
  | .d => 8
  | .q => 16

def SimdSizeCode.pairBytes : SimdSizeCode → Nat
  | .q => 16
  | .d => 8
  | .s => 4
  | _ => 16

def readSimdFromMem (m : Maps) (addr : Nat) : Nat → Option (List UInt8 × Maps)
  | 0 => some ([], m)
  | n + 1 =>
    if 2 ^ 64 ≤ addr then none
    else do
      let (byte, m) := m.readByte addr
      let (raw, m) ← readSimdFromMem m (addr + 1) n
      return (UInt8.ofNat (byte.getD 0) :: raw, m)

def writeSimdToMem (m : Maps) (addr : Nat) : List UInt8 → Option Maps
  | [] => some m
  | byte :: raw =>
    if 2 ^ 64 ≤ addr then none
    else do
      let (_, m) ← m.writeByte addr byte.toNat
      writeSimdToMem m (addr + 1) raw

section Handlers

variable (s : RegFile) (m : Maps) (ins : Instruction)

def RegFile.setGpr (sz : SizeCode) (r : Fin 32) (raw : List UInt8) : RegFile :=
  s.writeReg (.register sz r) (BitVec.ofNat 64 (leValue raw))

def RegFile.setV (r : Fin 32) (raw : List UInt8) : RegFile :=
  { s with v := Function.update s.v r (BitVec.ofNat 128 (leValue raw)) }

def ldr : Option (Bool × RegFile × Maps) :=
  let (addr, wb) := s.resolveMemAddr (ins.operands 1)
  match ins.operands 0 with
  | .simdRegister sz rd => do
      let (raw, m) ← readSimdFromMem m addr.toNat sz.regBytes
      return (true, (s.setV rd raw).doWriteback wb, m)
  | op =>
    let size := if operandIs64 op then 8 else 4
    match m.readScalar size addr.toNat with
    | (none, m) => some (false, s, m)
    | (some val, m) => some (true, (s.writeReg op (BitVec.ofNat 64 val)).doWriteback wb, m)

def ldp : Option (Bool × RegFile × Maps) :=
  let (addr, wb) := s.resolveMemAddr (ins.operands 2)
  match ins.operands 0, ins.operands 1 with
  | .simdRegister sz r₁, .simdRegister _ r₂ => do
      let (v₁, m) ← readSimdFromMem m addr.toNat sz.pairBytes
      let (v₂, m) ← readSimdFromMem m (← addU64 addr.toNat sz.pairBytes) sz.pairBytes
      return (true, ((s.setV r₁ v₁).setV r₂ v₂).doWriteback wb, m)
  | op₁, op₂ =>
    let size := if operandIs64 op₁ then 8 else 4
    match m.readScalar size addr.toNat with
    | (none, m) => some (false, s, m)
    | (some v₁, m) => do
        match m.readScalar size (← addU64 addr.toNat size) with
        | (none, m) => return (false, s, m)
        | (some v₂, m) =>
          let s := (s.writeReg op₁ (BitVec.ofNat 64 v₁)).writeReg op₂ (BitVec.ofNat 64 v₂)
          return (true, s.doWriteback wb, m)

def str : Option (Bool × RegFile × Maps) :=
  let (addr, wb) := s.resolveMemAddr (ins.operands 1)
  match ins.operands 0 with
  | .simdRegister sz rs => do
      let raw := leBytes 16 (s.v rs).toNat
      let m ← writeSimdToMem m addr.toNat (raw.take sz.regBytes)
      return (true, s.doWriteback wb, m)
  | op => do
      let size := if operandIs64 op then 8 else 4
      let (_, m) ← m.writeScalar size addr.toNat (s.readReg op).toNat
      return (true, s.doWriteback wb, m)

def stp : Option (Bool × RegFile × Maps) :=
  let (addr, wb) := s.resolveMemAddr (ins.operands 2)
  match ins.operands 0, ins.operands 1 with
  | .simdRegister sz r₁, .simdRegister _ r₂ => do
      let v₁ := leBytes 16 (s.v r₁).toNat
      let v₂ := leBytes 16 (s.v r₂).toNat
      let m ← writeSimdToMem m addr.toNat (v₁.take sz.pairBytes)
      let m ← writeSimdToMem m (← addU64 addr.toNat sz.pairBytes) (v₂.take sz.pairBytes)
      return (true, s.doWriteback wb, m)
  | op₁, op₂ => do
      let size := if operandIs64 op₁ then 8 else 4
      let (_, m) ← m.writeScalar size addr.toNat (s.readReg op₁).toNat
      let (_, m) ← m.writeScalar size (← addU64 addr.toNat size) (s.readReg op₂).toNat
      return (true, s.doWriteback wb, m)

end Handlers

/-! ### Precise transfers -/

inductive DataRegs where
  | gpr (sz : SizeCode) (rt : Fin 32)
  | gprPair (sz : SizeCode) (rt rt₂ : Fin 32)
  | simd (sz : SimdSizeCode) (rt : Fin 32)
  | simdPair (sz : SimdSizeCode) (rt rt₂ : Fin 32)

structure Transfer where
  store : Bool
  regs : DataRegs
  mem : Operand

def gprBytes (sz : SizeCode) : Nat := if is64 sz then 8 else 4

def DataRegs.size : DataRegs → Nat
  | .gpr sz _ | .gprPair sz _ _ => gprBytes sz
  | .simd sz _ => sz.regBytes
  | .simdPair sz _ _ => sz.pairBytes

def DataRegs.count : DataRegs → Nat
  | .gpr .. | .simd .. => 1
  | .gprPair .. | .simdPair .. => 2

def DataRegs.isSimd : DataRegs → Bool
  | .gpr .. | .gprPair .. => false
  | .simd .. | .simdPair .. => true

def DataRegs.values (regs : DataRegs) (s : RegFile) : List (List UInt8) :=
  match regs with
  | .gpr sz rt => [leBytes (gprBytes sz) (s.readReg (.register sz rt)).toNat]
  | .gprPair sz rt rt₂ => [leBytes (gprBytes sz) (s.readReg (.register sz rt)).toNat,
      leBytes (gprBytes sz) (s.readReg (.register sz rt₂)).toNat]
  | .simd sz rt => [leBytes sz.regBytes (s.v rt).toNat]
  | .simdPair sz rt rt₂ => [leBytes sz.pairBytes (s.v rt).toNat, leBytes sz.pairBytes (s.v rt₂).toNat]

def DataRegs.load (regs : DataRegs) (s : RegFile) (m : Maps) (addr : Nat) : RegFile :=
  match regs with
  | .gpr sz rt => s.setGpr sz rt (m.bytesAt addr (gprBytes sz))
  | .gprPair sz rt rt₂ => (s.setGpr sz rt (m.bytesAt addr (gprBytes sz))).setGpr sz rt₂
      (m.bytesAt (addr + gprBytes sz) (gprBytes sz))
  | .simd sz rt => s.setV rt (m.bytesAt addr sz.regBytes)
  | .simdPair sz rt rt₂ => (s.setV rt (m.bytesAt addr sz.pairBytes)).setV rt₂
      (m.bytesAt (addr + sz.pairBytes) sz.pairBytes)

/-- The bytes that a load puts into general register `k`, little-endian: the second register of a
pair is written last. -/
def DataRegs.gprBytesFor (regs : DataRegs) (m : Maps) (addr : Nat) (k : Fin 31) :
    Option (List UInt8) :=
  match regs with
  | .gpr sz rt => if rt.val = k then some (m.bytesAt addr (gprBytes sz)) else none
  | .gprPair sz rt rt₂ =>
    if rt₂.val = k then some (m.bytesAt (addr + gprBytes sz) (gprBytes sz))
    else if rt.val = k then some (m.bytesAt addr (gprBytes sz)) else none
  | .simd .. | .simdPair .. => none

def DataRegs.simdBytesFor (regs : DataRegs) (m : Maps) (addr : Nat) (k : Fin 32) :
    Option (List UInt8) :=
  match regs with
  | .gpr .. | .gprPair .. => none
  | .simd sz rt => if rt = k then some (m.bytesAt addr sz.regBytes) else none
  | .simdPair sz rt rt₂ =>
    if rt₂ = k then some (m.bytesAt (addr + sz.pairBytes) sz.pairBytes)
    else if rt = k then some (m.bytesAt addr sz.pairBytes) else none

namespace Transfer

variable (t : Transfer) (s : RegFile) (m : Maps)

def instruction : Instruction :=
  match t.regs with
  | .gpr sz rt => .of (.register sz rt) t.mem .nothing .nothing
  | .gprPair sz rt rt₂ => .of (.register sz rt) (.register sz rt₂) t.mem .nothing
  | .simd sz rt => .of (.simdRegister sz rt) t.mem .nothing .nothing
  | .simdPair sz rt rt₂ => .of (.simdRegister sz rt) (.simdRegister sz rt₂) t.mem .nothing

def execute : Option (Bool × RegFile × Maps) :=
  match t.store, t.regs with
  | false, .gpr .. | false, .simd .. => ldr s m t.instruction
  | false, .gprPair .. | false, .simdPair .. => ldp s m t.instruction
  | true, .gpr .. | true, .simd .. => str s m t.instruction
  | true, .gprPair .. | true, .simdPair .. => stp s m t.instruction

def addr : Nat := (s.resolveMemAddr t.mem).1.toNat

def length : Nat := t.regs.count * t.regs.size

def permission : Mem64 → Bool := if t.store then Mem64.canWrite else Mem64.canRead

def registers : RegFile :=
  (if t.store then s else t.regs.load s m (t.addr s)).doWriteback (s.resolveMemAddr t.mem).2

def loaded (k : Fin 31) : BitVec 64 :=
  if t.store then s.x k else
    ((t.regs.gprBytesFor m (t.addr s) k).map fun raw => BitVec.ofNat 64 (leValue raw)).getD (s.x k)

def loadedV (k : Fin 32) : BitVec 128 :=
  if t.store then s.v k else
    ((t.regs.simdBytesFor m (t.addr s) k).map fun raw => BitVec.ofNat 128 (leValue raw)).getD (s.v k)

/-- The registers after a transfer: the base is written back over what was loaded, and number 31 is
the stack pointer as a base and the zero register otherwise. -/
structure Leaves (s' : RegFile) : Prop where
  x : ∀ k : Fin 31, s'.x k = match (s.resolveMemAddr t.mem).2 with
    | some (base, val) => if base.val = k then val else t.loaded s m k
    | none => t.loaded s m k
  sp : s'.sp = match (s.resolveMemAddr t.mem).2 with
    | some (base, val) => if base.val = 31 then val else s.sp
    | none => s.sp
  v : ∀ k, s'.v k = t.loadedV s m k
  pc : s'.pc = s.pc
  nzcv : s'.nzcv = s.nzcv

def stored : List UInt8 := if t.store then (t.regs.values s).flatten else []

def parts : List (Nat × List UInt8) :=
  (t.regs.values s).mapIdx fun i value => (t.addr s + i * t.regs.size, value)

/-- The instruction returns `true` if each byte may be accessed. Then all bytes are transferred and
the base is written back; otherwise registers and memory are left as they were. -/
def Precise : Prop :=
  ∃ ok s' m', t.execute s m = some (ok, s', m') ∧
    (ok = true ↔ m.Allows t.permission (t.addr s) t.length) ∧
    (ok = true → t.Leaves s m s' ∧ m.Stores m' (t.addr s) (t.stored s)) ∧
    (ok = false → s' = s ∧ m.Stores m' (t.addr s) [])

/-- A transfer of vector registers may access each byte. One of general registers may access each
byte or is a load that fails, and the memory layer finds each register in one region or in two
adjacent ones, unless a store finds its bytes there already. -/
def Served : Prop :=
  match t.regs, t.store with
  | .simd .., _ | .simdPair .., _ => m.Allows t.permission (t.addr s) t.length
  | .gpr .., false | .gprPair .., false =>
    m.Allows t.permission (t.addr s) t.length →
      ∀ part ∈ t.parts s, m.InTwoRegions part.1 t.regs.size
  | .gpr .., true | .gprPair .., true =>
    m.Allows t.permission (t.addr s) t.length ∧
      ∀ part ∈ t.parts s, m.InTwoRegions part.1 t.regs.size ∨
        m.bytesAt part.1 t.regs.size = part.2

end Transfer

/-! ### Vector registers in memory -/

section Simd

variable {m : Maps}

open Mwemu.Maps Nat

theorem readSimdFromMem_eq (hwf : m.Wf) (addr n : Nat) (hend : addr + n ≤ 2 ^ 64) :
    ∃ raw tlb, readSimdFromMem m addr n = some (raw, { m with tlb := tlb }) ∧
      (m.Allows Mem64.canRead addr n → raw = m.bytesAt addr n) := by
  induction n generalizing m addr with
  | zero => exact ⟨[], m.tlb, rfl, fun _ => rfl⟩
  | succ n ih =>
    obtain ⟨tlb, hread⟩ := hwf.readScalar_eq 1 addr
    have hwf₁ : Wf { m with tlb := tlb } := hwf.congr rfl rfl rfl
    obtain ⟨raw, tlb', hrest, hraw⟩ := ih hwf₁ (addr + 1) (by omega)
    refine ⟨UInt8.ofNat ((m.peek 1 addr).getD 0) :: raw, tlb', ?_, fun hallows => ?_⟩
    · rw [readSimdFromMem, if_neg (by omega), Maps.readByte, hread]
      simp only [hrest]
      rfl
    rw [add_comm, allows_add] at hallows
    obtain ⟨v, hv⟩ := (hwf.peek_isSome_iff one_pos).mpr (hwf.reaches_one.mpr hallows.1)
    have hsame : { m with tlb := tlb }.bytesAt (addr + 1) n = m.bytesAt (addr + 1) n := rfl
    have hhead : [UInt8.ofNat (leValue (m.bytesAt addr 1))] = m.bytesAt addr 1 := by
      simp [bytesAt, leValue]
    rw [hv, Option.getD_some, hwf.peek_eq_bytesAt one_pos hv, hraw hallows.2, hsame,
      add_comm n, bytesAt_add, ← List.singleton_append, hhead]

theorem writeSimdToMem_eq (hwf : m.Wf) (addr : Nat) (bs : List UInt8)
    (hallows : m.Allows Mem64.canWrite addr bs.length) :
    ∃ m', writeSimdToMem m addr bs = some m' ∧ Stores m m' addr bs := by
  induction bs generalizing m addr with
  | nil => exact ⟨m, rfl, hwf.stores_of_eq m rfl rfl rfl addr⟩
  | cons b bs ih =>
    have hend := hwf.lt_of_allows hallows (succ_pos _)
    rw [List.length_cons, add_comm, allows_add] at hallows
    obtain ⟨ok, m₁, hbyte, hok⟩ : ∃ ok m', m.writeScalar 1 addr b.toNat = some (ok, m') ∧
        (ok = true ↔ m.Reaches Mem64.canWrite addr 1) := hwf.writeScalar_eq one_pos b.toNat
    obtain rfl : ok = true := hok.mpr (hwf.reaches_one.mpr hallows.1)
    have hstores := hwf.writeScalar_stores one_pos hbyte
    rw [if_pos rfl, leBytes_one] at hstores
    obtain ⟨m', hrest, hstores'⟩ :=
      ih hstores.wf (addr + 1) ((hstores.allows_canWrite _ _).mpr hallows.2)
    refine ⟨m', ?_, hstores.append hstores' rfl⟩
    rw [writeSimdToMem, if_neg (by omega), writeByte, hbyte]
    exact hrest

end Simd

/-! ### Which transfers are precise -/

theorem gprBytes_pos (sz : SizeCode) : 0 < gprBytes sz := by
  cases sz <;> decide

theorem SimdSizeCode.regBytes_pos (sz : SimdSizeCode) : 0 < sz.regBytes := by
  cases sz <;> decide

theorem SimdSizeCode.pairBytes_pos (sz : SimdSizeCode) : 0 < sz.pairBytes := by
  cases sz <;> decide

namespace Transfer

variable (t : Transfer) (s : RegFile) (m : Maps) {s' : RegFile}

theorem precise_iff_of_execute {ok : Bool} {m' : Maps}
    (hexec : t.execute s m = some (ok, s', m')) :
    t.Precise s m ↔ (ok = true ↔ m.Allows t.permission (t.addr s) t.length) ∧
      (ok = true → t.Leaves s m s' ∧ m.Stores m' (t.addr s) (t.stored s)) ∧
      (ok = false → s' = s ∧ m.Stores m' (t.addr s) []) := by
  constructor
  · rintro ⟨ok₁, s₁, m₁, hexec₁, hprecise⟩
    cases hexec.symm.trans hexec₁
    exact hprecise
  · exact fun hprecise => ⟨ok, s', m', hexec, hprecise⟩

/-- Only a load of general registers can return `false`. -/
theorem allows_of_precise (hkind : t.store = true ∨ t.regs.isSimd = true)
    (hprecise : t.Precise s m) : m.Allows t.permission (t.addr s) t.length := by
  have hbind {α : Type} {x : Option α} {f : α → Option (Bool × RegFile × Maps)}
      (hf : ∀ a, ∀ out ∈ f a, out.1 = true) : ∀ out ∈ x.bind f, out.1 = true := by
    intro out hout
    obtain ⟨a, -, ha⟩ := Option.bind_eq_some_iff.mp hout
    exact hf a out ha
  have hdone {s' : RegFile} {m' : Maps} : ∀ out ∈ some (true, s', m'), out.1 = true := by
    rintro _ ⟨⟩
    rfl
  obtain ⟨ok, s', m', hexec, hok, -⟩ := hprecise
  refine hok.mp ?_
  obtain ⟨_ | _, _ | _ | _ | _, mem⟩ := t
  · simp [DataRegs.isSimd] at hkind
  · simp [DataRegs.isSimd] at hkind
  · exact hbind (fun _ => hdone) _ hexec
  · exact hbind (fun _ => hbind fun _ => hbind fun _ => hdone) _ hexec
  · exact hbind (fun _ => hdone) _ hexec
  · exact hbind (fun _ => hbind fun _ => hbind fun _ => hdone) _ hexec
  · exact hbind (fun _ => hdone) _ hexec
  · exact hbind (fun _ => hbind fun _ => hbind fun _ => hdone) _ hexec

theorem leaves_doWriteback (hx : ∀ k, s'.x k = t.loaded s m k) (hsp : s'.sp = s.sp)
    (hv : ∀ k, s'.v k = t.loadedV s m k) (hpc : s'.pc = s.pc) (hnzcv : s'.nzcv = s.nzcv) :
    t.Leaves s m (s'.doWriteback (s.resolveMemAddr t.mem).2) := by
  constructor
  all_goals
    cases (s.resolveMemAddr t.mem).2 with
    | none => assumption
    | some wb => ?_
  all_goals
    obtain ⟨base, val⟩ := wb
    simp only [RegFile.doWriteback, RegFile.setXOrSp]
    split
  · exact fun k => (s'.x_setX base val k).trans (by rw [hx])
  · exact fun k => (hx k).trans (if_neg (by omega)).symm
  · exact ((s'.sp_setX base val).trans hsp).trans (if_neg (by omega)).symm
  · exact (if_pos (by omega)).symm
  all_goals assumption

theorem setGpr_eq (sz : SizeCode) (r : Fin 32) (addr : Nat) :
    s.setGpr sz r (m.bytesAt addr (gprBytes sz)) =
      s.setX r (BitVec.ofNat 64 (leValue (m.bytesAt addr (gprBytes sz)))) := by
  have hlt := leValue_lt (m.bytesAt addr (gprBytes sz))
  rw [Maps.length_bytesAt] at hlt
  rw [RegFile.setGpr, RegFile.writeReg]
  cases sz with
  | x => rfl
  | w =>
    rw [RegFile.truncate_eq]
    congr 1
    apply BitVec.eq_of_toNat_eq
    simp only [BitVec.toNat_setWidth, BitVec.toNat_ofNat, SizeCode.bits]
    change _ < 2 ^ 32 at hlt
    omega

theorem leaves_registers : t.Leaves s m (t.registers s m) := by
  obtain ⟨_ | _, regs, mem⟩ := t
  · cases regs with
    | gpr | gprPair =>
      refine leaves_doWriteback _ s m (fun k => ?_) ?_ (fun _ => rfl) rfl rfl
      · simp only [loaded, DataRegs.load, DataRegs.gprBytesFor, setGpr_eq, RegFile.x_setX,
          Bool.false_eq_true, if_false]
        split_ifs <;> rfl
      · simp only [DataRegs.load, setGpr_eq, RegFile.sp_setX, Bool.false_eq_true, if_false]
    | simd | simdPair =>
      refine leaves_doWriteback _ s m (fun _ => rfl) rfl (fun k => ?_) rfl rfl
      simp only [loadedV, DataRegs.load, DataRegs.simdBytesFor, RegFile.setV, Bool.false_eq_true,
        if_false, Function.update_apply, eq_comm]
      split_ifs <;> rfl
  · exact leaves_doWriteback _ s m (fun _ => rfl) rfl (fun _ => rfl) rfl rfl

theorem precise_load_iff (hload : t.store = false) (hwf : m.Wf) {ok : Bool} {tlb : Tlb}
    (hexec : t.execute s m = some (ok, if ok then t.registers s m else s, { m with tlb := tlb })) :
    t.Precise s m ↔ (ok = true ↔ m.Allows t.permission (t.addr s) t.length) := by
  have hstores : m.Stores { m with tlb := tlb } (t.addr s) [] :=
    hwf.stores_of_eq { m with tlb := tlb } rfl rfl rfl _
  have hstored : t.stored s = [] := by rw [stored, hload]; rfl
  rw [t.precise_iff_of_execute s m hexec, hstored]
  refine and_iff_left ⟨fun hok => ⟨?_, hstores⟩, fun hok => ⟨if_neg ?_, hstores⟩⟩
  · rw [if_pos hok]
    exact t.leaves_registers s m
  · rw [hok]
    decide

theorem length_flatten_values : (t.regs.values s).flatten.length = t.length := by
  rw [length]
  cases t.regs <;>
    simp [DataRegs.values, DataRegs.count, DataRegs.size, length_leBytes, two_mul]

theorem precise_store_iff (hstore : t.store = true) {m' : Maps}
    (hexec : t.execute s m = some (true, s.doWriteback (s.resolveMemAddr t.mem).2, m'))
    (htouches : m.Touches m' (t.addr s) t.length) :
    t.Precise s m ↔ m.Allows t.permission (t.addr s) t.length ∧
      m'.bytesAt (t.addr s) t.length = (t.regs.values s).flatten := by
  have hregs := t.leaves_registers s m
  rw [registers, if_pos hstore] at hregs
  have hstored : t.stored s = (t.regs.values s).flatten := by rw [stored, if_pos hstore]
  have hlen := t.length_flatten_values s
  rw [t.precise_iff_of_execute s m hexec, hstored, and_iff_right hregs]
  simp only [true_iff, forall_const, reduceCtorEq, false_implies, and_true]
  refine and_congr_right fun hallows => ?_
  rw [← hlen] at hallows htouches ⊢
  exact htouches.stores_iff hallows

section Gpr

variable {s m} (hwf : m.Wf) (sz : SizeCode) (rt rt₂ : Fin 32) (mem : Operand)

theorem readScalar_gpr (hwf : m.Wf) (addr : Nat) :
    ∃ tlb, m.readScalar (gprBytes sz) addr = (m.peek (gprBytes sz) addr, { m with tlb := tlb }) ∧
      ((m.peek (gprBytes sz) addr).isSome = true ↔ m.Reaches Mem64.canRead addr (gprBytes sz)) ∧
      ∀ v, m.peek (gprBytes sz) addr = some v → v = leValue (m.bytesAt addr (gprBytes sz)) := by
  obtain ⟨tlb, hread⟩ := hwf.readScalar_eq (gprBytes sz) addr
  refine ⟨tlb, hread, ?_, fun v hv => hwf.peek_eq_bytesAt (gprBytes_pos sz) hv⟩
  rw [Option.isSome_iff_exists, hwf.peek_isSome_iff (gprBytes_pos sz)]

include hwf

theorem ldr_gpr_precise_iff : Precise ⟨false, .gpr sz rt, mem⟩ s m ↔
    Served ⟨false, .gpr sz rt, mem⟩ s m := by
  generalize ht : (⟨false, .gpr sz rt, mem⟩ : Transfer) = t
  have hexec : t.execute s m = match m.readScalar (gprBytes sz) (t.addr s) with
      | (none, m) => some (false, s, m)
      | (some v, m) => some (true, (s.writeReg (.register sz rt) (BitVec.ofNat 64 v)).doWriteback
          (s.resolveMemAddr mem).2, m) := by
    subst ht
    rfl
  obtain ⟨tlb, hread, hsome, hvalue⟩ := readScalar_gpr sz hwf (t.addr s)
  have hload : t.execute s m = some ((m.peek (gprBytes sz) (t.addr s)).isSome,
      if (m.peek (gprBytes sz) (t.addr s)).isSome then t.registers s m else s,
      { m with tlb := tlb }) := by
    rw [hexec, hread]
    cases hpeek : m.peek (gprBytes sz) (t.addr s) with
    | none => rfl
    | some v =>
      rw [hvalue v hpeek]
      subst ht
      rfl
  rw [t.precise_load_iff s m (by rw [← ht]) hwf hload, hsome, hwf.reaches_iff (gprBytes_pos sz)]
  subst ht
  simp [Served, parts, DataRegs.values, permission, length, DataRegs.count, DataRegs.size]

theorem ldp_gpr_precise_iff : Precise ⟨false, .gprPair sz rt rt₂, mem⟩ s m ↔
    Served ⟨false, .gprPair sz rt rt₂, mem⟩ s m := by
  generalize ht : (⟨false, .gprPair sz rt rt₂, mem⟩ : Transfer) = t
  have hexec : t.execute s m = match m.readScalar (gprBytes sz) (t.addr s) with
      | (none, m) => some (false, s, m)
      | (some v₁, m) => (addU64 (t.addr s) (gprBytes sz)).bind fun addr₂ =>
        match m.readScalar (gprBytes sz) addr₂ with
        | (none, m) => some (false, s, m)
        | (some v₂, m) => some (true,
            ((s.writeReg (.register sz rt) (BitVec.ofNat 64 v₁)).writeReg (.register sz rt₂)
              (BitVec.ofNat 64 v₂)).doWriteback (s.resolveMemAddr mem).2, m) := by
    subst ht
    rfl
  obtain ⟨tlb, hread, hsome, hvalue⟩ := readScalar_gpr sz hwf (t.addr s)
  obtain ⟨tlb₂, hread₂, hsome₂, hvalue₂⟩ := readScalar_gpr sz
    (hwf.congr rfl rfl rfl : Maps.Wf { m with tlb := tlb }) (t.addr s + gprBytes sz)
  have hload : ∃ ok tlb, t.execute s m =
        some (ok, if ok then t.registers s m else s, { m with tlb := tlb }) ∧
      (ok = true ↔ m.Reaches Mem64.canRead (t.addr s) (gprBytes sz) ∧
        m.Reaches Mem64.canRead (t.addr s + gprBytes sz) (gprBytes sz)) := by
    rw [hexec, hread]
    cases hpeek : m.peek (gprBytes sz) (t.addr s) with
    | none =>
      refine ⟨false, tlb, rfl, iff_of_false (by decide) fun hreaches => ?_⟩
      rw [← hsome, hpeek] at hreaches
      exact absurd hreaches.1 (by decide)
    | some v₁ =>
      have hreaches := hsome.mp (by rw [hpeek]; rfl)
      have hend := hwf.lt_of_allows ((hwf.reaches_iff (gprBytes_pos sz)).mp hreaches).1
        (gprBytes_pos sz)
      simp only [addU64, if_pos hend, Option.bind_some, hread₂]
      refine ⟨(m.peek (gprBytes sz) (t.addr s + gprBytes sz)).isSome, tlb₂, ?_,
        hsome₂.trans (and_iff_right hreaches).symm⟩
      cases hpeek₂ : m.peek (gprBytes sz) (t.addr s + gprBytes sz) with
      | none =>
        have hnone : Maps.peek { m with tlb := tlb } (gprBytes sz)
          (t.addr s + gprBytes sz) = none := hpeek₂
        rw [hnone]
        rfl
      | some v₂ =>
        have hsecond : Maps.peek { m with tlb := tlb } (gprBytes sz)
          (t.addr s + gprBytes sz) = some v₂ := hpeek₂
        rw [hsecond, hvalue v₁ hpeek, hvalue₂ v₂ hsecond]
        subst ht
        rfl
  obtain ⟨ok, tlb', hload, hok⟩ := hload
  rw [t.precise_load_iff s m (by rw [← ht]) hwf hload, hok, hwf.reaches_iff (gprBytes_pos sz),
    hwf.reaches_iff (gprBytes_pos sz)]
  subst ht
  simp [Served, parts, DataRegs.values, permission, length, DataRegs.count, DataRegs.size,
    two_mul, Maps.allows_add]
  tauto

theorem str_gpr_precise_iff : Precise ⟨true, .gpr sz rt, mem⟩ s m ↔
    Served ⟨true, .gpr sz rt, mem⟩ s m := by
  generalize ht : (⟨true, .gpr sz rt, mem⟩ : Transfer) = t
  have hlength : t.length = gprBytes sz := by rw [← ht]; exact one_mul _
  obtain ⟨ok, m', hwrite, htouches, hbytes⟩ := hwf.writeScalar_touches (gprBytes_pos sz)
    (t.addr s) (s.readReg (.register sz rt)).toNat
  have hexec : t.execute s m = some (true, s.doWriteback (s.resolveMemAddr t.mem).2, m') := by
    subst ht
    exact Option.bind_eq_some_iff.mpr ⟨_, hwrite, rfl⟩
  rw [← hlength] at htouches
  rw [t.precise_store_iff s m (by rw [← ht]) hexec htouches]
  subst ht
  simp [Served, parts, DataRegs.values, permission, hlength, DataRegs.size]
  exact fun hallows => hbytes hallows

theorem stp_gpr_precise_iff : Precise ⟨true, .gprPair sz rt rt₂, mem⟩ s m ↔
    Served ⟨true, .gprPair sz rt rt₂, mem⟩ s m := by
  generalize ht : (⟨true, .gprPair sz rt rt₂, mem⟩ : Transfer) = t
  have hlength : t.length = gprBytes sz + gprBytes sz := by rw [← ht]; exact two_mul _
  have hserved : t.Served s m ↔ m.Allows Mem64.canWrite (t.addr s) (gprBytes sz + gprBytes sz) ∧
      (m.InTwoRegions (t.addr s) (gprBytes sz) ∨ m.bytesAt (t.addr s) (gprBytes sz) =
        leBytes (gprBytes sz) (s.readReg (.register sz rt)).toNat) ∧
      (m.InTwoRegions (t.addr s + gprBytes sz) (gprBytes sz) ∨
        m.bytesAt (t.addr s + gprBytes sz) (gprBytes sz) =
          leBytes (gprBytes sz) (s.readReg (.register sz rt₂)).toNat) := by
    rw [← hlength]
    subst ht
    simp [Served, parts, DataRegs.values, permission, DataRegs.size]
  have hpermission : t.permission = Mem64.canWrite := by rw [← ht]; rfl
  by_cases hallows : m.Allows Mem64.canWrite (t.addr s) (gprBytes sz + gprBytes sz)
  · obtain ⟨ok, m₁, hwrite, htouches, hbytes⟩ := hwf.writeScalar_touches (gprBytes_pos sz)
      (t.addr s) (s.readReg (.register sz rt)).toNat
    obtain ⟨ok₂, m₂, hwrite₂, htouches₂, hbytes₂⟩ := htouches.wf.writeScalar_touches
      (gprBytes_pos sz) (t.addr s + gprBytes sz) (s.readReg (.register sz rt₂)).toNat
    have hend := hwf.lt_of_allows hallows (Nat.add_pos_left (gprBytes_pos sz) _)
    obtain ⟨hallows₁, hallows₂⟩ := Maps.allows_add.mp hallows
    have hexec : t.execute s m = some (true, s.doWriteback (s.resolveMemAddr t.mem).2, m₂) := by
      have hnext : t.addr s + gprBytes sz < 2 ^ 64 := by omega
      subst ht
      refine Option.bind_eq_some_iff.mpr ⟨_, hwrite, ?_⟩
      refine Option.bind_eq_some_iff.mpr ⟨_, if_pos hnext, ?_⟩
      exact Option.bind_eq_some_iff.mpr ⟨_, hwrite₂, rfl⟩
    have hpair := htouches.append htouches₂
    have htwo : m₁.InTwoRegions (t.addr s + gprBytes sz) (gprBytes sz) ↔
        m.InTwoRegions (t.addr s + gprBytes sz) (gprBytes sz) :=
      htouches.reaches_iff (fun _ _ _ => rfl) _ _
    have hfirst := hbytes hallows₁
    have hsecond := hbytes₂ ((htouches.allows_canWrite _ _).mpr hallows₂)
    rw [htwo, htouches.bytesAt_eq (.inr (le_refl _))] at hsecond
    rw [← htouches₂.bytesAt_eq (.inl (le_refl _))] at hfirst
    rw [hserved, ← hfirst, ← hsecond]
    rw [← hlength] at hpair
    rw [t.precise_store_iff s m (by rw [← ht]) hexec hpair, hlength, Maps.bytesAt_add]
    have hvalues : (t.regs.values s).flatten =
        leBytes (gprBytes sz) (s.readReg (.register sz rt)).toNat ++
          leBytes (gprBytes sz) (s.readReg (.register sz rt₂)).toNat := by
      rw [← ht]
      simp [DataRegs.values]
    rw [hvalues, hpermission]
    refine and_congr_right fun _ => ⟨fun heq => ?_, fun heq => by rw [heq.1, heq.2]⟩
    exact List.append_inj heq (by rw [Maps.length_bytesAt, length_leBytes])
  · refine iff_of_false (fun hprecise => hallows ?_) (fun h => hallows (hserved.mp h).1)
    rw [← hpermission, ← hlength]
    exact t.allows_of_precise s m (.inl (by rw [← ht])) hprecise

end Gpr

section Simd

variable {t s m} (hwf : m.Wf) {sz : SimdSizeCode} {rt rt₂ : Fin 32} {mem : Operand}

theorem take_leBytes {n k : Nat} (hle : n ≤ k) (value : Nat) :
    (leBytes k value).take n = leBytes n value := by
  rw [leBytes, leBytes, ← List.map_take, List.take_range, min_eq_left hle]

include hwf

theorem ldr_simd_precise (ht : ⟨false, .simd sz rt, mem⟩ = t)
    (hallows : m.Allows t.permission (t.addr s) t.length) : t.Precise s m := by
  have hlength : t.length = sz.regBytes := by rw [← ht]; exact one_mul _
  have hend := hwf.lt_of_allows hallows (hlength ▸ sz.regBytes_pos)
  obtain ⟨raw, tlb, hread, hraw⟩ := readSimdFromMem_eq hwf (t.addr s) sz.regBytes (by omega)
  have hload : t.execute s m = some (true, if true then t.registers s m else s,
      { m with tlb := tlb }) := by
    subst ht
    refine Option.bind_eq_some_iff.mpr ⟨_, hread, ?_⟩
    rw [hraw (hlength ▸ hallows)]
    rfl
  exact (t.precise_load_iff s m (by rw [← ht]) hwf hload).mpr (iff_of_true rfl hallows)

theorem ldp_simd_precise (ht : ⟨false, .simdPair sz rt rt₂, mem⟩ = t)
    (hallows : m.Allows t.permission (t.addr s) t.length) : t.Precise s m := by
  have hlength : t.length = sz.pairBytes + sz.pairBytes := by rw [← ht]; exact two_mul _
  have hpos := sz.pairBytes_pos
  have hend := hwf.lt_of_allows hallows (by omega)
  have hread : m.Allows Mem64.canRead (t.addr s) (sz.pairBytes + sz.pairBytes) := by
    rw [← hlength]
    subst ht
    exact hallows
  obtain ⟨hallows₁, hallows₂⟩ := Maps.allows_add.mp hread
  obtain ⟨raw₁, tlb₁, hread₁, hraw₁⟩ := readSimdFromMem_eq hwf (t.addr s) sz.pairBytes (by omega)
  obtain ⟨raw₂, tlb₂, hread₂, hraw₂⟩ := readSimdFromMem_eq
    (hwf.congr rfl rfl rfl : Maps.Wf { m with tlb := tlb₁ }) (t.addr s + sz.pairBytes)
    sz.pairBytes (by omega)
  have hload : t.execute s m = some (true, if true then t.registers s m else s,
      { m with tlb := tlb₂ }) := by
    have hnext : t.addr s + sz.pairBytes < 2 ^ 64 := by omega
    subst ht
    refine Option.bind_eq_some_iff.mpr ⟨_, hread₁, ?_⟩
    refine Option.bind_eq_some_iff.mpr ⟨_, if_pos hnext, ?_⟩
    refine Option.bind_eq_some_iff.mpr ⟨_, hread₂, ?_⟩
    rw [hraw₁ hallows₁, hraw₂ hallows₂]
    rfl
  exact (t.precise_load_iff s m (by rw [← ht]) hwf hload).mpr (iff_of_true rfl hallows)

theorem str_simd_precise (ht : ⟨true, .simd sz rt, mem⟩ = t)
    (hallows : m.Allows t.permission (t.addr s) t.length) : t.Precise s m := by
  have hvalues : (t.regs.values s).flatten = (leBytes 16 (s.v rt).toNat).take sz.regBytes := by
    rw [← ht, take_leBytes (by cases sz <;> decide)]
    exact List.append_nil _
  have hlen := t.length_flatten_values s
  rw [hvalues] at hlen
  have hwrite : m.Allows Mem64.canWrite (t.addr s)
      ((leBytes 16 (s.v rt).toNat).take sz.regBytes).length := by
    rw [hlen]
    subst ht
    exact hallows
  obtain ⟨m', hdone, hstores⟩ := writeSimdToMem_eq hwf (t.addr s) _ hwrite
  have hexec : t.execute s m = some (true, s.doWriteback (s.resolveMemAddr t.mem).2, m') := by
    subst ht
    exact Option.bind_eq_some_iff.mpr ⟨_, hdone, rfl⟩
  refine (t.precise_store_iff s m (by rw [← ht]) hexec (hstores.touches hlen.le)).mpr ⟨hallows, ?_⟩
  rw [← hlen, hstores.bytesAt_eq, hvalues]

theorem stp_simd_precise (ht : ⟨true, .simdPair sz rt rt₂, mem⟩ = t)
    (hallows : m.Allows t.permission (t.addr s) t.length) : t.Precise s m := by
  have hlength : t.length = sz.pairBytes + sz.pairBytes := by rw [← ht]; exact two_mul _
  have hsize : sz.pairBytes ≤ 16 := by cases sz <;> decide
  have hpos := sz.pairBytes_pos
  have hend := hwf.lt_of_allows hallows (by omega)
  have hwrite : m.Allows Mem64.canWrite (t.addr s) (sz.pairBytes + sz.pairBytes) := by
    rw [← hlength]
    subst ht
    exact hallows
  obtain ⟨hallows₁, hallows₂⟩ := Maps.allows_add.mp hwrite
  obtain ⟨m₁, hdone₁, hstores₁⟩ := writeSimdToMem_eq hwf (t.addr s)
    (leBytes sz.pairBytes (s.v rt).toNat) (by rwa [length_leBytes])
  obtain ⟨m₂, hdone₂, hstores₂⟩ := writeSimdToMem_eq hstores₁.wf (t.addr s + sz.pairBytes)
    (leBytes sz.pairBytes (s.v rt₂).toNat)
    (by rw [length_leBytes]; exact (hstores₁.allows_canWrite _ _).mpr hallows₂)
  have hexec : t.execute s m = some (true, s.doWriteback (s.resolveMemAddr t.mem).2, m₂) := by
    rw [← take_leBytes hsize] at hdone₁ hdone₂
    have hnext : t.addr s + sz.pairBytes < 2 ^ 64 := by omega
    subst ht
    refine Option.bind_eq_some_iff.mpr ⟨_, hdone₁, ?_⟩
    refine Option.bind_eq_some_iff.mpr ⟨_, if_pos hnext, ?_⟩
    exact Option.bind_eq_some_iff.mpr ⟨_, hdone₂, rfl⟩
  have hvalues : (t.regs.values s).flatten = leBytes sz.pairBytes (s.v rt).toNat ++
      leBytes sz.pairBytes (s.v rt₂).toNat := by
    rw [← ht]
    simp [DataRegs.values]
  have hstores := hstores₁.append hstores₂ (by rw [length_leBytes])
  have hlen := t.length_flatten_values s
  rw [← hvalues] at hstores
  refine (t.precise_store_iff s m (by rw [← ht]) hexec (hstores.touches hlen.le)).mpr ⟨hallows, ?_⟩
  rw [← hlen, hstores.bytesAt_eq]

end Simd

end Transfer

def eightBytes : List Maps.Op := [.createMap "a" 16 8 Maps.readWrite]

end Mwemu.Aarch64
