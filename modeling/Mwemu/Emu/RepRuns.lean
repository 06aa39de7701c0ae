import Mwemu.Emu.RepElements

/-!
# The run loop, instruction by instruction

The memory and registers after `k` elements of STOS, MOVS and LODS, and the search of SCAS, when the
whole range lies in one region: every element step leads from one such state to the next.
-/

namespace Mwemu

open Mwemu.Arch Nat

namespace Emu

variable {e e' : Emu} {ins : Instruction} {width : Width} {size n key : Nat} {r : Mem64}

variable {k : Nat}

theorem toNat_add_ofNat {x : BitVec 64} (hlt : x.toNat + k < 2 ^ 64) :
    (x + BitVec.ofNat 64 k).toNat = x.toNat + k := by
  have hk : k < 2 ^ 64 := by omega
  rw [BitVec.toNat_add, BitVec.toNat_ofNat, mod_eq_of_lt hk, mod_eq_of_lt hlt]

theorem add_ofNat_succ_mul (x : BitVec 64) (k n : Nat) :
    x + BitVec.ofNat 64 (k * n) + BitVec.ofNat 64 n = x + BitVec.ofNat 64 ((k + 1) * n) := by
  rw [succ_mul, BitVec.ofNat_add, BitVec.add_assoc]

theorem element_fits (width : Width) (hk : k < n) :
    k * width.bytes + width.bytes ≤ n * width.bytes := by
  rw [← succ_mul]
  exact mul_le_mul_right _ hk

theorem add_stride_sub_one (hmnemonic : ins.mnemonic ≠ .string .movs .qword) (pos : BitVec 64) :
    pos + (stride ins - 1) = pos := by
  rw [stride, if_neg hmnemonic, BitVec.sub_self, BitVec.add_zero]

/-! ### STOS -/

def stored (e : Emu) (width : Width) (count : Nat) : List UInt8 :=
  (List.replicate count (leBytes width.bytes e.regs.rax.toNat)).flatten

theorem length_stored (e : Emu) (width : Width) (count : Nat) :
    (e.stored width count).length = count * width.bytes := by
  simp [stored, length_leBytes]

theorem stored_succ (e : Emu) (width : Width) (count : Nat) : e.stored width (count + 1) =
      e.stored width count ++ leBytes width.bytes (e.regs.acc width).toNat := by
  rw [stored, List.replicate_succ', List.flatten_append, List.flatten_singleton, stored, acc_toNat,
    leBytes_mod]

theorem element_stos (hforward : e.Forward) (hoperand : ins.hasStringOperand = true)
    (hmnemonic : ins.mnemonic = .string .stos width)
    (hcovers : e.maps.Covers key r e.regs.rdi.toNat (n * width.bytes))
    (hwrite : r.canWrite = true) (hexec : r.canExecute = false) (hk : k < n) :
    e.Element ins (fun k => e.maps.patch key r e.regs.rdi.toNat (e.stored width k))
      (fun k => { e.regs with rdi := e.regs.rdi + BitVec.ofNat 64 (k * width.bytes) }) k := by
  intro tlb rcx rep pos count
  have hlt := hcovers.lt_two_pow
  have hfits := element_fits width hk
  have hlength := length_stored e width k
  obtain ⟨tlb', hscalar⟩ := hcovers.writeScalar_next (hlength.symm ▸ hfits) (bytes_pos width) hwrite
    hexec (e.regs.acc width).toNat tlb
  rw [hlength, ← toNat_add_ofNat (by omega), ← stored_succ] at hscalar
  refine ⟨tlb', ((hforward.at_element _ _ _ _ _).emulate_stos hoperand hmnemonic hscalar).trans ?_⟩
  rw [add_stride_sub_one (by simp [hmnemonic])]
  simp only [add_ofNat_succ_mul]

/-! ### MOVS -/

theorem element_movs (hforward : e.Forward) (hoperand : ins.hasStringOperand = true)
    (hmnemonic : ins.mnemonic = .string .movs width) {src : Nat} {rs : Mem64}
    (hsource : e.maps.Covers src rs e.regs.rsi.toNat (n * width.bytes))
    (hread : rs.canRead = true) (hcovers : e.maps.Covers key r e.regs.rdi.toNat (n * width.bytes))
    (hwrite : r.canWrite = true) (hexec : r.canExecute = false)
    (hapart : e.regs.rsi.toNat + n * width.bytes ≤ e.regs.rdi.toNat ∨
      e.regs.rdi.toNat + n * width.bytes ≤ e.regs.rsi.toNat) (hk : k < n) : e.Element ins
      (fun k => e.maps.patch key r e.regs.rdi.toNat
        (rs.readBytes e.regs.rsi.toNat (k * width.bytes))) (fun k => { e.regs with
        rsi := e.regs.rsi + BitVec.ofNat 64 (k * width.bytes)
        rdi := e.regs.rdi + BitVec.ofNat 64 (k * width.bytes) }) k := by
  intro tlb rcx rep pos count
  have hlt := hcovers.lt_two_pow
  have hlt' := hsource.lt_two_pow
  have hfits := element_fits width hk
  have hcopied : rs.Spans e.regs.rsi.toNat (k * width.bytes) :=
    hsource.spans.sub (le_refl _) (by omega)
  have helement : e.maps.Covers src rs (e.regs.rsi.toNat + k * width.bytes) width.bytes :=
    hsource.sub (by omega) (by omega)
  have hnext : rs.Spans e.regs.rsi.toNat (k * width.bytes + width.bytes) :=
    hsource.spans.sub (le_refl _) (by omega)
  have hwritten : e.maps.Covers key r e.regs.rdi.toNat (k * width.bytes) :=
    hcovers.sub (le_refl _) (by omega)
  have hlength := hcopied.length_readBytes hread
  rw [← hlength] at hwritten
  obtain ⟨tlb₁, hload⟩ := hwritten.readScalar_patch helement (bytes_pos width) hread
    (by rw [hlength]; omega) tlb
  obtain ⟨tlb', hstore⟩ := hcovers.writeScalar_next (hlength.symm ▸ hfits) (bytes_pos width) hwrite
    hexec (leValue (rs.readBytes (e.regs.rsi.toNat + k * width.bytes) width.bytes)) tlb₁
  have hvalue : leBytes width.bytes
      (leValue (rs.readBytes (e.regs.rsi.toNat + k * width.bytes) width.bytes)) =
      rs.readBytes (e.regs.rsi.toNat + k * width.bytes) width.bytes := by
    have hround := leBytes_leValue (rs.readBytes (e.regs.rsi.toNat + k * width.bytes) width.bytes)
    rwa [helement.spans.length_readBytes hread] at hround
  rw [hlength, hvalue, ← hnext.readBytes_add hread, ← succ_mul, succ_eq_add_one,
    ← toNat_add_ofNat (by omega)] at hstore
  rw [← toNat_add_ofNat (by omega)] at hload hstore
  refine ⟨tlb', ((hforward.at_element _ _ _ _ _).emulate_movs hoperand hmnemonic hload
    hstore).trans ?_⟩
  simp only [add_ofNat_succ_mul]

/-! ### LODS -/

/-- `rax` after a load of the given width: the low bytes replaced, a dword zero-extended. -/
def loadInto (width : Width) (rax val : BitVec 64) : BitVec 64 :=
  match width with
  | .byte => (rax &&& 0xffffffffffffff00) + (val &&& 0xff)
  | .word => (rax &&& 0xffffffffffff0000) + (val &&& 0xffff)
  | .dword => val &&& 0xffffffff
  | .qword => val

theorem setAcc_eq (regs : Regs64) (width : Width) (val : BitVec 64) :
    regs.setAcc width val = { regs with rax := loadInto width regs.rax val } := by
  cases width <;> rfl

theorem and_not_add_and (x y m : BitVec 64) : ((x &&& ~~~m) + (y &&& m)) &&& ~~~m = x &&& ~~~m := by
  have hdisjoint : (x &&& ~~~m) &&& (y &&& m) = 0#64 := by
    ext i hi
    simp only [BitVec.getElem_and, BitVec.getElem_not, BitVec.getElem_zero]
    cases m[i] <;> simp
  rw [BitVec.add_eq_or_of_and_eq_zero _ _ hdisjoint]
  ext i hi
  simp only [BitVec.getElem_and, BitVec.getElem_or, BitVec.getElem_not]
  cases m[i] <;> simp

theorem loadInto_loadInto (width : Width) (rax a b : BitVec 64) :
    loadInto width (loadInto width rax a) b = loadInto width rax b := by
  cases width with
  | byte => exact congrArg (· + (b &&& 0xff)) (and_not_add_and rax a 0xff)
  | word => exact congrArg (· + (b &&& 0xffff)) (and_not_add_and rax a 0xffff)
  | dword => rfl
  | qword => rfl

def loaded (e : Emu) (width : Width) (r : Mem64) : Nat → BitVec 64
  | 0 => e.regs.rax
  | k + 1 => loadInto width e.regs.rax (BitVec.ofNat 64
      (leValue (r.readBytes (e.regs.rsi.toNat + k * width.bytes) width.bytes)))

theorem loaded_succ (e : Emu) (width : Width) (r : Mem64) (k : Nat) :
    loadInto width (e.loaded width r k) (BitVec.ofNat 64
      (leValue (r.readBytes (e.regs.rsi.toNat + k * width.bytes) width.bytes))) =
      e.loaded width r (k + 1) := by
  cases k with
  | zero => rfl
  | succ k => exact loadInto_loadInto ..

theorem element_lods (hforward : e.Forward) (hoperand : ins.hasStringOperand = true)
    (hmnemonic : ins.mnemonic = .string .lods width)
    (hcovers : e.maps.Covers key r e.regs.rsi.toNat (n * width.bytes)) (hread : r.canRead = true)
    (hk : k < n) : e.Element ins (fun _ => e.maps) (fun k => { e.regs with
        rax := e.loaded width r k
        rsi := e.regs.rsi + BitVec.ofNat 64 (k * width.bytes) }) k := by
  intro tlb rcx rep pos count
  have hlt := hcovers.lt_two_pow
  have hfits := element_fits width hk
  have helement : e.maps.Covers key r (e.regs.rsi.toNat + k * width.bytes) width.bytes :=
    hcovers.sub (by omega) (by omega)
  obtain ⟨tlb', hload⟩ := (helement.withTlb tlb).readScalar (bytes_pos width) hread
  have hsi : (e.regs.rsi + BitVec.ofNat 64 (k * width.bytes)).toNat =
      e.regs.rsi.toNat + k * width.bytes := toNat_add_ofNat (by omega)
  refine ⟨tlb', ((hforward.at_element _ _ _ _ _).emulate_lods hoperand hmnemonic
    ((congrArg _ hsi).trans hload)).trans ?_⟩
  rw [add_stride_sub_one (by simp [hmnemonic]), setAcc_eq]
  simp only [add_ofNat_succ_mul, loaded_succ]

/-! ### SCAS -/

theorem slice_readBytes {addr total off len : Nat} (hspans : r.Spans addr total)
    (hread : r.canRead = true) (hfits : off + len ≤ total) :
    slice (r.readBytes addr total) off len = some (r.readBytes (addr + off) len) := by
  have hlow := hspans.low
  have hpart : r.Spans (addr + off) len := hspans.sub (by omega) (by omega)
  rw [slice, if_pos (by rw [hspans.length_readBytes hread]; exact hfits),
    hspans.readBytes_eq hread, hpart.readBytes_eq hread, List.drop_take, List.drop_drop,
    List.take_take, min_eq_left (by omega)]
  congr 3
  omega

def stops (ins : Instruction) (equal : Bool) : Bool :=
  if ins.hasRepnePrefix then equal else !equal

theorem scan_readBytes {addr acc elem : Nat} (hspans : r.Spans addr (n * width.bytes))
    (hread : r.canRead = true) (hk : k < n)
    (helem : elem = leValue (r.readBytes (addr + k * width.bytes) width.bytes)) :
    scan ins.hasRepnePrefix acc width.bytes (r.readBytes addr (n * width.bytes)) (n - 1 - k) k =
      if stops ins (acc == elem) || k + 1 == n then some (k + 1, elem)
      else scan ins.hasRepnePrefix acc width.bytes (r.readBytes addr (n * width.bytes))
        (n - 1 - (k + 1)) (k + 1) := by
  rw [scan, slice_readBytes hspans hread (element_fits width hk), Option.bind_some, ← helem]
  cases hleft : n - 1 - k with
  | zero =>
    have hlast : k + 1 = n := by omega
    simp [hlast]
  | succ left =>
    have hmore : ¬ k + 1 = n := by omega
    have hleft' : n - 1 - (k + 1) = left := by omega
    simp [hmore, hleft', stops]

theorem prefix_cases (hins : ins.isRepStringInstruction = true) :
    ins.hasRepePrefix = true ∧ ins.hasRepnePrefix = false ∨
      ins.hasRepePrefix = false ∧ ins.hasRepnePrefix = true := by
  simp only [Instruction.isRepStringInstruction, Instruction.prefixed, Bool.and_eq_true] at hins
  obtain ⟨⟨hprefixed, -⟩, -⟩ := hins
  simp only [Instruction.hasRepPrefix, Instruction.hasRepePrefix, Instruction.hasRepnePrefix]
    at hprefixed ⊢
  cases hrep : ins.repPrefix with
  | none => rw [hrep] at hprefixed; exact absurd hprefixed (by decide)
  | some rep => cases rep <;> decide

theorem update_of_scas (hins : ins.isRepStringInstruction = true)
    (hmnemonic : ins.mnemonic = .string .scas width) {c : BitVec 64} (hrep : e.rep = some c) :
    e.updateX86RepStateAfterExecution ins =
      if stops ins e.flags.zf then { e.countRep c with rep := none } else e.countRep c := by
  have hflags : (e.countRep c).flags = e.flags := by
    rw [countRep]
    split <;> rfl
  simp only [updateX86RepStateAfterExecution, hrep, hmnemonic, stops]
  obtain ⟨hrepe, hrepne⟩ | ⟨hrepe, hrepne⟩ := prefix_cases hins <;>
    cases hzf : e.flags.fZf <;> simp [hrepe, hrepne, hflags, hzf]

theorem repPass_of_scas (size : Nat) (hins : ins.isRepStringInstruction = true)
    (hmnemonic : ins.mnemonic = .string .scas width) (hrcx : e.regs.rcx ≠ 0) {c : BitVec 64}
    (helement : e.started.emulateInstruction ins = some (true, e')) (hrep : e'.rep = some c) :
    e.repPass ins size = some (if stops ins e'.flags.zf || (e'.countRep c).rep.isNone then
        .done ({ e'.countRep c with rep := none }.advancePcX86 size)
      else .again (e'.countRep c)) := by
  rw [repPass_eq hins hrcx, helement, Option.map_some]
  simp only [update_of_scas hins hmnemonic hrep]
  cases hstops : stops ins e'.flags.zf with
  | true => rfl
  | false =>
    have hsame : (e'.countRep c).rep.isNone = true →
        { e'.countRep c with rep := none } = e'.countRep c := by
      intro hnone
      rw [Option.isNone_iff_eq_none] at hnone
      rw [← hnone]
    cases hdone : (e'.countRep c).rep.isNone with
    | true => simp [hdone, hsame hdone]
    | false => simp [hdone]

def compared (e : Emu) (width : Width) (k : Nat) (tlb : Tlb) (flags : Flags)
    (rep : Option (BitVec 64)) : Emu :=
  { e with
    maps := { e.maps with tlb := tlb }
    regs := { e.regs with
      rcx := e.regs.rcx - BitVec.ofNat 64 k
      rdi := e.regs.rdi + BitVec.ofNat 64 (k * width.bytes) }
    flags := flags
    rep := rep
    pos := e.pos + BitVec.ofNat 64 k
    instructionCount := e.instructionCount + BitVec.ofNat 64 k }

theorem repPass_scas (size : Nat) (hforward : e.Forward)
    (hins : ins.isRepStringInstruction = true) (hmnemonic : ins.mnemonic = .string .scas width)
    (hcovers : e.maps.Covers key r e.regs.rdi.toNat (e.regs.rcx.toNat * width.bytes))
    (hread : r.canRead = true) {elem : Nat} (hk : k < e.regs.rcx.toNat)
    (helem : elem = leValue (r.readBytes (e.regs.rdi.toNat + k * width.bytes) width.bytes))
    (tlb : Tlb) {flags : Flags} (hdf : flags.fDf = false) (rep : Option (BitVec 64)) :
    ∃ tlb' rep', (e.compared width k tlb flags rep).repPass ins size =
      some (if stops ins ((e.regs.acc width).toNat == elem) || k + 1 == e.regs.rcx.toNat then
        .done ((e.compared width (k + 1) tlb'
          (flags.subWidth width (e.regs.acc width).toNat elem).2 none).advancePcX86 size)
      else .again (e.compared width (k + 1) tlb'
        (flags.subWidth width (e.regs.acc width).toNat elem).2 (some rep'))) := by
  have hlt := hcovers.lt_two_pow
  have hfits := element_fits width hk
  have helement : e.maps.Covers key r (e.regs.rdi.toNat + k * width.bytes) width.bytes :=
    hcovers.sub (by omega) (by omega)
  have hdi : (e.regs.rdi + BitVec.ofNat 64 (k * width.bytes)).toNat =
      e.regs.rdi.toNat + k * width.bytes := toNat_add_ofNat (by omega)
  obtain ⟨tlb', hload⟩ := (helement.withTlb tlb).readScalar (bytes_pos width) hread
  have hstart : Forward (e.compared width k tlb flags rep).started :=
    ⟨hforward.x64, hdf, hforward.unhooked⟩
  have hemulate : (e.compared width k tlb flags rep).started.emulateInstruction ins =
      some (true, { e.compared width (k + 1) tlb'
          (flags.subWidth width (e.regs.acc width).toNat elem).2 (some (rep.getD 0)) with
        regs.rcx := e.regs.rcx - BitVec.ofNat 64 k }) := by
    rw [hstart.emulate_scas (Bool.and_eq_true_iff.mp hins).2 hmnemonic
      ((congrArg _ hdi).trans hload), helem]
    simp only [compared]
    rw [← add_ofNat_succ_mul, ← add_ofNat_succ, ← add_ofNat_succ]
    cases width <;> rfl
  have hzf : (flags.subWidth width (e.regs.acc width).toNat elem).2.zf =
      ((e.regs.acc width).toNat == elem) := by
    refine Flags.subWidth_zf width flags ?_ ?_ <;> rw [two_pow_bits]
    · rw [acc_toNat]
      exact Nat.mod_lt _ (Nat.pow_pos (by decide))
    · have hvalue := leValue_lt (r.readBytes (e.regs.rdi.toNat + k * width.bytes) width.bytes)
      rwa [helement.spans.length_readBytes hread, ← helem] at hvalue
  refine ⟨tlb', rep.getD 0 + 1, ?_⟩
  have hne : e.regs.rcx - BitVec.ofNat 64 k ≠ 0 :=
    mt (sub_ofNat_eq_zero (Nat.le_of_lt hk)).mp (Nat.ne_of_lt hk)
  rw [repPass_of_scas size hins hmnemonic hne hemulate rfl, countRep, if_neg hne]
  simp only [compared, hzf, sub_ofNat_succ]
  by_cases hdone : k + 1 = e.regs.rcx.toNat
  · simp [hdone]
  · have hmore : ¬ e.regs.rcx - BitVec.ofNat 64 (k + 1) = 0#64 := mt (sub_ofNat_eq_zero hk).mp hdone
    simp [hmore, hdone]

theorem repLoop_scas (size : Nat) (hforward : e.Forward)
    (hins : ins.isRepStringInstruction = true) (hmnemonic : ins.mnemonic = .string .scas width)
    (hcovers : e.maps.Covers key r e.regs.rdi.toNat (e.regs.rcx.toNat * width.bytes))
    (hread : r.canRead = true) (hrcx : 0 < e.regs.rcx.toNat) {found term : Nat}
    (hscan : scan ins.hasRepnePrefix (e.regs.acc width).toNat width.bytes
      (r.readBytes e.regs.rdi.toNat (e.regs.rcx.toNat * width.bytes)) (e.regs.rcx.toNat - 1) 0 =
      some (found, term)) : ∃ tlb flags, found ≤ e.regs.rcx.toNat ∧
      flags.SameArith (e.flags.subWidth width (e.regs.acc width).toNat term).2 ∧
      repLoop ins size e.regs.rcx.toNat e =
        some ((e.compared width found tlb flags none).advancePcX86 size) := by
  have hstart : e = e.compared width 0 e.maps.tlb e.flags e.rep := by simp [compared]
  obtain ⟨_, hloop, tlb, flags, hle, hsame, rfl⟩ := repLoop_of_invariant ins size
    (fun k s => ∃ tlb flags rep, flags.fDf = false ∧ s = e.compared width k tlb flags rep ∧
      scan ins.hasRepnePrefix (e.regs.acc width).toNat width.bytes
        (r.readBytes e.regs.rdi.toNat (e.regs.rcx.toNat * width.bytes))
        (e.regs.rcx.toNat - 1 - k) k = some (found, term))
    (fun s => ∃ tlb flags, found ≤ e.regs.rcx.toNat ∧
      flags.SameArith (e.flags.subWidth width (e.regs.acc width).toNat term).2 ∧
      s = (e.compared width found tlb flags none).advancePcX86 size)
    (fun k s hk hinv => by
      obtain ⟨tlb, flags, rep, hdf, rfl, hscan⟩ := hinv
      obtain ⟨tlb', rep', hpass⟩ := repPass_scas size hforward hins hmnemonic hcovers hread hk rfl
        tlb hdf rep
      rw [scan_readBytes hcovers.spans hread hk rfl] at hscan
      split at hscan
      · next hstop =>
        rw [if_pos hstop] at hpass
        obtain ⟨rfl, rfl⟩ := Prod.mk.inj (Option.some.inj hscan)
        exact .inr ⟨_, hpass, tlb', _, hk, Flags.sameArith_subWidth .., rfl⟩
      · next hmore =>
        rw [if_neg hmore] at hpass
        rw [Bool.or_eq_true, not_or, beq_iff_eq] at hmore
        have hdf' : (flags.subWidth width (e.regs.acc width).toNat (leValue (r.readBytes
            (e.regs.rdi.toNat + k * width.bytes) width.bytes))).2.fDf = false := by
          rw [← hdf]
          cases width <;> rfl
        exact .inl ⟨_, hpass, by omega, tlb', _, _, hdf', rfl, hscan⟩)
    hrcx ⟨e.maps.tlb, e.flags, e.rep, hforward.df, hstart, hscan⟩
  exact ⟨tlb, flags, hle, hsame, hloop⟩

end Emu

end Mwemu
