import Mwemu.Emu.RepRuns

/-!
# The bulk path refines the run loop

Where the bulk path takes a REP instruction, the run loop would have ended too, and in the same
state: memory, registers, instruction count and arithmetic flags are equal. The position counter is
equal as well, except for MOVSQ, whose handler moves it once more for every element.
-/

namespace Mwemu

open Mwemu.Arch Nat

namespace Emu

variable {e e' : Emu} {ins : Instruction} {width : Width} {size count processed : Nat}

/-- The states hold the same memory up to the lookup buffer, and the same registers, counters and
arithmetic flags. -/
structure Agrees (a b : Emu) : Prop where
  memory : a.maps = { b.maps with tlb := a.maps.tlb }
  regs : a.regs = b.regs
  pos : a.pos = b.pos
  instructionCount : a.instructionCount = b.instructionCount
  flags : a.flags.SameArith b.flags

/-- The instruction writes the byte at `x` if it runs over all its elements. -/
def Writes (e : Emu) (ins : Instruction) (x : Nat) : Prop :=
  ∃ width, (ins.mnemonic = .string .stos width ∨ ins.mnemonic = .string .movs width) ∧
    e.regs.rdi.toNat ≤ x ∧ x < e.regs.rdi.toNat + e.regs.rcx.toNat * width.bytes

/-! ### What a bulk access leaves -/

theorem regionAllows_cases (hwf : e.maps.Wf) (addr : Nat) {len : Nat} (hlen : 0 < len)
    (allowed : Mem64 → Bool) : ∃ ok tlb, e.regionAllows addr (addr + (len - 1)) allowed =
      (ok, { e with maps := { e.maps with tlb := tlb } }) ∧
      (ok = true → ∃ key r, e.maps.Covers key r addr len ∧ allowed r = true) := by
  obtain ⟨tlb, hlookup⟩ := hwf.getMemByAddr_eq addr
  refine ⟨_, tlb, by rw [regionAllows, hlookup], fun hok => ?_⟩
  rw [Option.any_eq_true] at hok
  obtain ⟨⟨key, r⟩, hfound, hok⟩ := hok
  rw [Bool.and_eq_true] at hok
  exact ⟨key, r, hwf.covers hfound hlen hok.1, hok.2⟩

theorem not_canExecute {key addr len : Nat} {r : Mem64} (hcovers : e.maps.Covers key r addr len)
    (hlen : 0 < len) (hspares : e.maps.executableAt addr = false) : r.canExecute = false := by
  rw [Maps.executableAt, hcovers.searchMaps hlen, Option.any_some] at hspares
  exact hspares

theorem bulkStos_eq (hwf : e.maps.Wf) (hcount : 0 < count)
    (hspares : e.maps.executableAt e.regs.rdi.toNat = false)
    (hbulk : e.bulkStos width count = some (some processed, e')) :
    ∃ key r tlb, e.maps.Covers key r e.regs.rdi.toNat (count * width.bytes) ∧
      r.canWrite = true ∧ r.canExecute = false ∧ processed = count ∧ e' = { e with
        maps := { e.maps.patch key r e.regs.rdi.toNat (e.stored width count) with tlb := tlb }
        regs := { e.regs with
          rdi := e.regs.rdi + BitVec.ofNat 64 (count * width.bytes), rcx := 0 } } := by
  have htotal : 0 < count * width.bytes := mul_pos hcount (bytes_pos width)
  obtain ⟨ok, tlb, hregion, hcovers⟩ :=
    regionAllows_cases hwf e.regs.rdi.toNat htotal Mem64.canWrite
  simp only [bulkStos, hregion] at hbulk
  cases ok with
  | false => exact absurd hbulk (by simp)
  | true =>
    obtain ⟨key, r, hcovers, hwrite⟩ := hcovers rfl
    have hexec := not_canExecute hcovers htotal hspares
    have hlength := length_stored e width count
    have hrange : Maps.Covers { e.maps with tlb := tlb } key r e.regs.rdi.toNat
        (e.stored width count).length := hlength.symm ▸ hcovers.withTlb tlb
    obtain ⟨tlb', hbytes⟩ := hrange.writeBytes (hlength.symm ▸ htotal) hwrite hexec
    rw [stored] at hbytes
    simp only [hbytes, Bool.not_true, Bool.false_eq_true, if_false, Option.map_some,
      Option.some.injEq, Prod.mk.injEq] at hbulk
    obtain ⟨rfl, rfl⟩ := hbulk
    exact ⟨key, r, tlb', hcovers, hwrite, hexec, rfl, rfl⟩

theorem bulkMovs_eq (hwf : e.maps.Wf) (hcount : 0 < count)
    (hspares : e.maps.executableAt e.regs.rdi.toNat = false)
    (hbulk : e.bulkMovs width count = some (some processed, e')) :
    ∃ src rs key r tlb, e.maps.Covers src rs e.regs.rsi.toNat (count * width.bytes) ∧
      rs.canRead = true ∧ e.maps.Covers key r e.regs.rdi.toNat (count * width.bytes) ∧
      r.canWrite = true ∧ r.canExecute = false ∧
      (e.regs.rsi.toNat + count * width.bytes ≤ e.regs.rdi.toNat ∨
        e.regs.rdi.toNat + count * width.bytes ≤ e.regs.rsi.toNat) ∧ processed = count ∧
      e' = { e with
        maps := { e.maps.patch key r e.regs.rdi.toNat
          (rs.readBytes e.regs.rsi.toNat (count * width.bytes)) with tlb := tlb }
        regs := { e.regs with
          rsi := e.regs.rsi + BitVec.ofNat 64 (count * width.bytes)
          rdi := e.regs.rdi + BitVec.ofNat 64 (count * width.bytes), rcx := 0 } } := by
  have htotal : 0 < count * width.bytes := mul_pos hcount (bytes_pos width)
  obtain ⟨readable, tlb₁, hreadable, hsource⟩ :=
    regionAllows_cases hwf e.regs.rsi.toNat htotal Mem64.canRead
  have hwf₁ : Maps.Wf { e.maps with tlb := tlb₁ } := hwf.congr rfl rfl rfl
  obtain ⟨writable, tlb₂, hwritable, hcovers⟩ := regionAllows_cases
    (e := { e with maps := { e.maps with tlb := tlb₁ } }) hwf₁ e.regs.rdi.toNat htotal Mem64.canWrite
  simp only [bulkMovs, hreadable, hwritable] at hbulk
  split at hbulk
  · exact absurd hbulk (by simp)
  · next hapart =>
    cases readable with
    | false => exact absurd hbulk (by simp)
    | true =>
      cases writable with
      | false => exact absurd hbulk (by simp)
      | true =>
        obtain ⟨src, rs, hsource, hread⟩ := hsource rfl
        obtain ⟨key, r, hcovers, hwrite⟩ := hcovers rfl
        have hcovers' : e.maps.Covers key r e.regs.rdi.toNat (count * width.bytes) :=
          hcovers.withTlb e.maps.tlb
        have hexec := not_canExecute hcovers' htotal hspares
        obtain ⟨tlb₃, hbytes⟩ := (hsource.withTlb tlb₂).readBytes htotal hread
        have hlength := hsource.spans.length_readBytes hread
        have hrange : Maps.Covers { e.maps with tlb := tlb₃ } key r e.regs.rdi.toNat
            (rs.readBytes e.regs.rsi.toNat (count * width.bytes)).length :=
          hlength.symm ▸ hcovers'.withTlb tlb₃
        obtain ⟨tlb', hstore⟩ := hrange.writeBytes (hlength.symm ▸ htotal) hwrite hexec
        simp only [readBytes, hbytes, hstore, Bool.not_true, Bool.or_self,
          Bool.false_eq_true, if_false, Option.map_some, Option.bind_eq_bind,
          Option.bind_some, Option.some.injEq, Prod.mk.injEq] at hbulk
        obtain ⟨rfl, rfl⟩ := hbulk
        exact ⟨src, rs, key, r, tlb', hsource, hread, hcovers', hwrite, hexec, by omega, rfl, rfl⟩

theorem bulkLods_eq (hwf : e.maps.Wf) (hcount : 0 < count)
    (hbulk : e.bulkLods width count = some (some processed, e')) :
    ∃ key r tlb, e.maps.Covers key r e.regs.rsi.toNat (count * width.bytes) ∧
      r.canRead = true ∧ processed = count ∧ e' = { e with
        maps := { e.maps with tlb := tlb }
        regs := { e.regs with
          rax := e.loaded width r count
          rsi := e.regs.rsi + BitVec.ofNat 64 (count * width.bytes), rcx := 0 } } := by
  have htotal : 0 < count * width.bytes := mul_pos hcount (bytes_pos width)
  obtain ⟨ok, tlb, hregion, hcovers⟩ := regionAllows_cases hwf e.regs.rsi.toNat htotal Mem64.canRead
  simp only [bulkLods, hregion] at hbulk
  cases ok with
  | false => exact absurd hbulk (by simp)
  | true =>
    obtain ⟨key, r, hcovers, hread⟩ := hcovers rfl
    obtain ⟨tlb', hbytes⟩ := (hcovers.withTlb tlb).readBytes htotal hread
    obtain ⟨k, rfl⟩ : ∃ k, count = k + 1 := ⟨count - 1, by omega⟩
    have hlast := slice_readBytes hcovers.spans hread (element_fits width (Nat.lt_succ_self k))
    simp only [readBytes, hbytes, hlast, Nat.add_sub_cancel, Bool.not_true, Bool.false_eq_true,
      if_false, Option.map_some, Option.bind_eq_bind, Option.bind_some, Option.some.injEq,
      Prod.mk.injEq] at hbulk
    obtain ⟨rfl, rfl⟩ := hbulk
    exact ⟨key, r, tlb', hcovers, hread, rfl, by rw [setAcc_eq]; rfl⟩

theorem and_mask (regs : Regs64) (width : Width) : regs.rax &&& mask width = regs.acc width := by
  cases width with
  | byte => rfl
  | word => rfl
  | dword => rfl
  | qword => exact BitVec.and_allOnes

theorem bulkScas_eq (hwf : e.maps.Wf) (hcount : 0 < count)
    (hbulk : e.bulkScas ins width count = some (some processed, e')) :
    ∃ key r tlb term, e.maps.Covers key r e.regs.rdi.toNat (count * width.bytes) ∧
      r.canRead = true ∧ scan ins.hasRepnePrefix (e.regs.acc width).toNat width.bytes
        (r.readBytes e.regs.rdi.toNat (count * width.bytes)) (count - 1) 0 =
        some (processed, term) ∧ e' = { e with
        maps := { e.maps with tlb := tlb }
        flags := (e.flags.materializeLazy.subWidth width (e.regs.acc width).toNat term).2
        regs := { e.regs with
          rcx := BitVec.ofNat 64 (count - processed)
          rdi := e.regs.rdi + BitVec.ofNat 64 (processed * width.bytes) } } := by
  have htotal : 0 < count * width.bytes := mul_pos hcount (bytes_pos width)
  obtain ⟨ok, tlb, hregion, hcovers⟩ := regionAllows_cases hwf e.regs.rdi.toNat htotal Mem64.canRead
  simp only [bulkScas, hregion] at hbulk
  cases ok with
  | false => exact absurd hbulk (by simp)
  | true =>
    obtain ⟨key, r, hcovers, hread⟩ := hcovers rfl
    obtain ⟨tlb', hbytes⟩ := (hcovers.withTlb tlb).readBytes htotal hread
    simp only [readBytes, hbytes, and_mask, Bool.not_true, Bool.false_eq_true, if_false,
      Option.map_some, Option.bind_eq_bind, Option.bind_some, Option.map_eq_some_iff,
      Prod.mk.injEq, Option.some.injEq, Prod.exists] at hbulk
    obtain ⟨_, term, hscan, rfl, rfl⟩ := hbulk
    exact ⟨key, r, tlb', term, hcovers, hread, hscan, rfl⟩

/-! ### Both paths -/

theorem fDf_materializeLazy (f : Flags) : f.materializeLazy.fDf = f.fDf := by
  rw [Flags.materializeLazy]
  split <;> rfl

/-- The bulk path works on flags that are no longer lazy. -/
abbrev settled (e : Emu) : Emu := { e with flags := e.flags.materializeLazy }

theorem forward_of_not_refuses (hx64 : e.cfg.isX64 = true)
    (hrefuses : refuses e.settled width = false) :
    e.Forward ∧ 0 < e.regs.rcx.toNat := by
  simp only [refuses, observed, fDf_materializeLazy, Bool.or_eq_false_iff,
    decide_eq_false_iff_not] at hrefuses
  obtain ⟨⟨⟨⟨⟨⟨hdf, ⟨⟨-, hhook⟩, -⟩, -⟩, hcount⟩, -⟩, -⟩, -⟩, -⟩ := hrefuses
  exact ⟨⟨hx64, hdf, Option.not_isSome_iff_eq_none.mp (by rw [hhook]; exact Bool.false_ne_true)⟩,
    by omega⟩

theorem tryFastRepString_eq_true {fast : Emu}
    (hfast : e.tryFastRepString ins size = some (true, fast)) :
    ∃ op width processed e', ins.mnemonic = .string op width ∧ e.Forward ∧ 0 < e.regs.rcx.toNat ∧
      bulk e.settled ins op width e.regs.rcx.toNat =
        some (some processed, e') ∧ fast = e'.finishBulk size processed := by
  simp only [tryFastRepString] at hfast
  split at hfast
  · exact absurd hfast (by simp)
  · next op width hmnemonic =>
    split at hfast
    · exact absurd hfast (by simp)
    · next hmode =>
      split at hfast
      · exact absurd hfast (by simp)
      · next hrefuses =>
        simp only [Bool.or_eq_true, not_or, Bool.not_eq_true, Bool.not_eq_false'] at hmode
        obtain ⟨hforward, hrcx⟩ := forward_of_not_refuses hmode.2 (Bool.not_eq_true _ ▸ hrefuses)
        rw [Option.map_eq_some_iff] at hfast
        obtain ⟨⟨_ | processed, e'⟩, hbulk, heq⟩ := hfast
        · exact absurd heq (by simp)
        · exact ⟨op, width, processed, e', hmnemonic, hforward, hrcx, hbulk,
            (Prod.mk.inj heq).2.symm⟩

theorem add_mul_stride_iff (hrcx : 0 < e.regs.rcx.toNat) :
    e.pos + BitVec.ofNat 64 e.regs.rcx.toNat =
      e.pos + BitVec.ofNat 64 e.regs.rcx.toNat * stride ins ↔
      ins.mnemonic ≠ .string .movs .qword := by
  rw [BitVec.ofNat_toNat, BitVec.setWidth_eq, stride]
  constructor
  · intro hpos hmovsq
    rw [if_pos hmovsq] at hpos
    have hdouble : e.regs.rcx + 0 = e.regs.rcx + e.regs.rcx := by
      rw [add_zero, ← mul_two]
      exact add_left_cancel hpos
    rw [← add_left_cancel hdouble] at hrcx
    exact absurd hrcx (by decide)
  · intro hmnemonic
    rw [if_neg hmnemonic]
    ring

theorem agrees_counting_iff (hforward : e.Forward) (hrcx : 0 < e.regs.rcx.toNat)
    (maps : Maps) (regs : Regs64) (tlb tlb' : Tlb) : (finishBulk { e with
        maps := { maps with tlb := tlb }
        regs := { regs with rcx := 0 }
        flags := e.flags.materializeLazy } size e.regs.rcx.toNat).Agrees
      ((e.after ins e.regs.rcx.toNat { maps with tlb := tlb' } regs none).advancePcX86 size) ↔
      ins.mnemonic ≠ .string .movs .qword := by
  have hzero : e.regs.rcx - BitVec.ofNat 64 e.regs.rcx.toNat = 0 :=
    (sub_ofNat_eq_zero (le_refl _)).mpr rfl
  have hslow : (e.after ins e.regs.rcx.toNat { maps with tlb := tlb' } regs none).advancePcX86
      size = { e with
        maps := { maps with tlb := tlb' }
        regs := { regs with rcx := 0, rip := regs.rip + BitVec.ofNat 64 size }
        rep := none
        pos := e.pos + BitVec.ofNat 64 e.regs.rcx.toNat * stride ins
        instructionCount := e.instructionCount + BitVec.ofNat 64 e.regs.rcx.toNat } := by
    simp only [advancePcX86, after, hforward.x64, if_true, hzero]
  rw [hslow, ← add_mul_stride_iff hrcx]
  exact ⟨fun hagrees => hagrees.pos, fun hpos =>
    ⟨rfl, rfl, hpos, rfl, Flags.sameArith_materializeLazy e.flags⟩⟩

/-- The run loop ends, and agrees unless the instruction is MOVSQ. -/
abbrev LoopAgrees (ins : Instruction) (size : Nat) (e fast : Emu) : Prop :=
  ∃ slow, repLoop ins size e.regs.rcx.toNat e = some slow ∧
    (fast.Agrees slow ↔ ins.mnemonic ≠ .string .movs .qword)

section Paths

variable {fast : Emu} (hwf : e.maps.Wf) (hforward : e.Forward) (hrcx : 0 < e.regs.rcx.toNat)
  (hins : ins.isRepStringInstruction = true)
include hwf hforward hrcx hins

theorem paths_stos (hmnemonic : ins.mnemonic = .string .stos width)
    (hspares : e.maps.executableAt e.regs.rdi.toNat = false)
    (hbulk : bulkStos e.settled width e.regs.rcx.toNat =
      some (some processed, e')) :
    LoopAgrees ins size e (e'.finishBulk size processed) := by
  obtain ⟨key, r, tlb, hcovers, hwrite, hexec, rfl, rfl⟩ :=
    bulkStos_eq (e := e.settled) hwf hrcx hspares hbulk
  have hrange : e.maps.Covers key r e.regs.rdi.toNat (e.regs.rcx.toNat * width.bytes) := hcovers
  obtain ⟨tlb', hloop⟩ := repLoop_counting size hins ⟨width, .inl hmnemonic⟩ hrcx
    (Maps.patch_nil hrange.get e.regs.rdi.toNat) (by simp) fun k hk =>
      element_stos hforward (Bool.and_eq_true_iff.mp hins).2 hmnemonic hrange hwrite hexec hk
  exact ⟨_, hloop, agrees_counting_iff hforward hrcx
    (e.maps.patch key r e.regs.rdi.toNat (e.stored width e.regs.rcx.toNat))
    { e.regs with rdi := e.regs.rdi + BitVec.ofNat 64 (e.regs.rcx.toNat * width.bytes) } tlb tlb'⟩

theorem paths_movs (hmnemonic : ins.mnemonic = .string .movs width)
    (hspares : e.maps.executableAt e.regs.rdi.toNat = false)
    (hbulk : bulkMovs e.settled width e.regs.rcx.toNat =
      some (some processed, e')) :
    LoopAgrees ins size e (e'.finishBulk size processed) := by
  obtain ⟨src, rs, key, r, tlb, hsource, hread, hcovers, hwrite, hexec, hapart, rfl, rfl⟩ :=
    bulkMovs_eq (e := e.settled) hwf hrcx hspares hbulk
  have hrange : e.maps.Covers key r e.regs.rdi.toNat (e.regs.rcx.toNat * width.bytes) := hcovers
  have hempty : rs.readBytes e.regs.rsi.toNat (0 * width.bytes) = [] := by
    have hnone : rs.Spans e.regs.rsi.toNat (0 * width.bytes) :=
      hsource.spans.sub (le_refl _) (by rw [zero_mul]; exact le_add_right _ _)
    rw [hnone.readBytes_eq hread, zero_mul, List.take_zero]
  obtain ⟨tlb', hloop⟩ := repLoop_counting size hins ⟨width, .inr (.inl hmnemonic)⟩ hrcx
    (M := fun k => e.maps.patch key r e.regs.rdi.toNat
        (rs.readBytes e.regs.rsi.toNat (k * width.bytes)))
    (by rw [hempty, Maps.patch_nil hrange.get]) (by simp) fun k hk =>
      element_movs hforward (Bool.and_eq_true_iff.mp hins).2 hmnemonic hsource hread hrange hwrite
        hexec hapart hk
  exact ⟨_, hloop, agrees_counting_iff hforward hrcx (e.maps.patch key r e.regs.rdi.toNat
      (rs.readBytes e.regs.rsi.toNat (e.regs.rcx.toNat * width.bytes)))
    { e.regs with
      rsi := e.regs.rsi + BitVec.ofNat 64 (e.regs.rcx.toNat * width.bytes)
      rdi := e.regs.rdi + BitVec.ofNat 64 (e.regs.rcx.toNat * width.bytes) } tlb tlb'⟩

theorem paths_lods (hmnemonic : ins.mnemonic = .string .lods width)
    (hbulk : bulkLods e.settled width e.regs.rcx.toNat =
      some (some processed, e')) :
    LoopAgrees ins size e (e'.finishBulk size processed) := by
  obtain ⟨key, r, tlb, hcovers, hread, rfl, rfl⟩ := bulkLods_eq (e := e.settled) hwf hrcx hbulk
  have hrange : e.maps.Covers key r e.regs.rsi.toNat (e.regs.rcx.toNat * width.bytes) := hcovers
  obtain ⟨tlb', hloop⟩ := repLoop_counting size hins ⟨width, .inr (.inr hmnemonic)⟩ hrcx
    (M := fun _ => e.maps) rfl (by simp [loaded]) fun k hk =>
      element_lods hforward (Bool.and_eq_true_iff.mp hins).2 hmnemonic hrange hread hk
  exact ⟨_, hloop, agrees_counting_iff hforward hrcx e.maps
    { e.regs with
      rax := e.loaded width r e.regs.rcx.toNat
      rsi := e.regs.rsi + BitVec.ofNat 64 (e.regs.rcx.toNat * width.bytes) } tlb tlb'⟩

theorem paths_scas (hmnemonic : ins.mnemonic = .string .scas width)
    (hbulk : bulkScas e.settled ins width e.regs.rcx.toNat =
      some (some processed, e')) :
    LoopAgrees ins size e (e'.finishBulk size processed) := by
  obtain ⟨key, r, tlb, term, hcovers, hread, hscan, rfl⟩ :=
    bulkScas_eq (e := e.settled) hwf hrcx hbulk
  have hrange : e.maps.Covers key r e.regs.rdi.toNat (e.regs.rcx.toNat * width.bytes) := hcovers
  obtain ⟨tlb', flags, hle, hflags, hloop⟩ :=
    repLoop_scas size hforward hins hmnemonic hrange hread hrcx hscan
  have hcount : BitVec.ofNat 64 (e.regs.rcx.toNat - processed) =
      e.regs.rcx - BitVec.ofNat 64 processed := by
    rw [← BitVec.toNat_inj, toNat_sub_ofNat hle, BitVec.toNat_ofNat]
    exact mod_eq_of_lt (lt_of_le_of_lt (sub_le _ _) e.regs.rcx.isLt)
  refine ⟨_, hloop, iff_of_true ?_ (by simp [hmnemonic])⟩
  simp only [finishBulk, advancePcX86, compared, hforward.x64, if_true, hcount]
  refine ⟨rfl, rfl, rfl, rfl, ?_⟩
  have hsame := Flags.sameArith_subWidth width e.flags.materializeLazy.materializeLazy e.flags
    (e.regs.acc width).toNat term
  exact hsame.trans hflags.symm

end Paths

/-- Where the bulk path takes an instruction, the run loop ends, and in an agreeing state unless the
instruction is MOVSQ. -/
theorem tryFastRepString_agrees_iff {fast : Emu} (hwf : e.maps.Wf)
    (hins : ins.isRepStringInstruction = true)
    (hspares : ∀ x, e.Writes ins x → e.maps.executableAt x = false)
    (hfast : e.tryFastRepString ins size = some (true, fast)) :
    ∃ slow, repLoop ins size e.regs.rcx.toNat e = some slow ∧
      (fast.Agrees slow ↔ ins.mnemonic ≠ .string .movs .qword) := by
  obtain ⟨op, width, processed, e', hmnemonic, hforward, hrcx, hbulk, rfl⟩ :=
    tryFastRepString_eq_true hfast
  have hfirst : e.regs.rdi.toNat < e.regs.rdi.toNat + e.regs.rcx.toNat * width.bytes :=
    Nat.lt_add_of_pos_right (Nat.mul_pos hrcx (bytes_pos width))
  cases op with
  | stos =>
    exact paths_stos hwf hforward hrcx hins hmnemonic
      (hspares _ ⟨width, .inl hmnemonic, le_refl _, hfirst⟩) hbulk
  | movs =>
    exact paths_movs hwf hforward hrcx hins hmnemonic
      (hspares _ ⟨width, .inr hmnemonic, le_refl _, hfirst⟩) hbulk
  | lods => exact paths_lods hwf hforward hrcx hins hmnemonic hbulk
  | scas => exact paths_scas hwf hforward hrcx hins hmnemonic hbulk
  | cmps => exact absurd hbulk (by simp [bulk])

def dataMaps : Maps :=
  (Maps.default.createMap "data" 0x1000 0x100 Mem64.default.permission).1

def copyState : Emu :=
  { cfg :=
      { isX64 := true, verbose := 0, traceMem := false, traceRegs := false, traceReg := false
        traceFlags := false, traceString := false, inspect := false, entropy := false
        exitPosition := 0 }
    hooks :=
      { hookOnPreInstruction := false, hookOnPostInstruction := false, hookOnMemoryRead := false
        hookOnMemoryWrite := none }
    bp := { memReadAddr := [], memWriteAddr := [], instruction := [] }
    exp := BitVec.allOnes 64
    maps := dataMaps
    regs := { rax := 0x41, rcx := 16, rsi := 0x1000, rdi := 0x1080, rip := 0x400000 }
    flags := Flags.new
    rep := none
    pos := 0
    instructionCount := 0 }

def repMovs (width : Width) : Instruction :=
  { mnemonic := .string .movs width, repPrefix := some .repe
    opKinds := [.memoryESRDI, .memorySegRSI] }

theorem dataMaps_wf : dataMaps.Wf :=
  (Maps.wf_default.createMap Mem64.default.permission (by decide) (.inr (.inr fun key r hget => by
    simp [Maps.default] at hget))).wf

theorem dataMaps_executableAt (x : Nat) : dataMaps.executableAt x = false := by
  have hslab : dataMaps.memSlab = Lib.Slab.empty.insert
      (Maps.freshMem "data" 0x1000 0x100 Mem64.default.permission) := rfl
  cases hfound : dataMaps.searchMaps x with
  | none => rw [Maps.executableAt, hfound, Option.any_none]
  | some found =>
    have hget := (dataMaps_wf.searchMaps_eq_some.mp hfound).1
    rw [hslab, Lib.Slab.get_insert, Lib.Slab.get_empty] at hget
    split at hget
    · rw [Maps.executableAt, hfound, Option.any_some, ← Option.some.inj hget]
      rfl
    · cases hget

theorem tryFastRepString_agrees_iff_movsb :
    ∃ fast, copyState.tryFastRepString (repMovs .byte) 2 = some (true, fast) ∧
      ∃ slow, repLoop (repMovs .byte) 2 copyState.regs.rcx.toNat copyState = some slow ∧
        (fast.Agrees slow ↔ (repMovs .byte).mnemonic ≠ .string .movs .qword) := by
  have htaken : (copyState.tryFastRepString (repMovs .byte) 2).map Prod.fst = some true := by
    decide +kernel
  obtain ⟨⟨taken, fast⟩, hfast, rfl⟩ := Option.map_eq_some_iff.mp htaken
  exact ⟨fast, hfast, tryFastRepString_agrees_iff dataMaps_wf rfl
    (fun x _ => dataMaps_executableAt x) hfast⟩

/-- After sixteen quadwords the bulk path is at position 16 and the run loop at 32. -/
theorem movsq_positions_differ :
    ((copyState.tryFastRepString (repMovs .qword) 3).map fun out => (out.1, out.2.pos)) =
        some (true, 16) ∧
      ((repLoop (repMovs .qword) 3 16 copyState).map fun slow => slow.pos) = some 32 := by
  decide +kernel

end Emu

end Mwemu
