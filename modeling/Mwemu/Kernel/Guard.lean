import Mwemu.Kernel.Alloc
import Mwemu.Lib.Mask

/-!
# The memory guard

`kernelGuardAccess` looks only at the first byte of an access and `kernelGuardRange` only at the
chunk in which a range starts. Against the misuse of any byte of the range, the first is sound but
misses accesses that begin before the bad byte, and the second also reports ranges that leave a
chunk without reaching a bad byte.
-/

namespace Mwemu.Kernel

open Mwemu.Lib

/-- The byte is in a freed chunk, or in a live one at or beyond what was asked for. -/
def BadByte (h : KernelHeap) (x : Nat) : Prop :=
  ∃ c ∈ h.chunks, c.contains x = true ∧ (c.isFreed = true ∨ c.addr + c.reqSize.toNat ≤ x)

def BadRange (h : KernelHeap) (addr n : Nat) : Prop :=
  ∃ x, addr ≤ x ∧ x < addr + n ∧ BadByte h x

def Misuse (h : KernelHeap) (addr : UInt64) (n : Nat) : Prop :=
  isFreePoison addr = true ∨ BadRange h addr.toNat n

def Reports (e e' : KernelEmu) : Prop := e'.kernel.findings ≠ e.kernel.findings

theorem report_ne (findings : List Finding) (f : Finding) : report findings f ≠ findings := by
  unfold report
  split
  next i hi =>
    obtain ⟨hlt, -⟩ := List.findIdx?_eq_some_iff_getElem.mp hi
    intro hsame
    have hget := congrArg (fun fs : List Finding => fs[i]?.map Finding.hits) hsame
    simp [List.getElem?_eq_getElem hlt, Finding.hit] at hget
  next => exact fun hsame => by simp at hsame

theorem reports_kernelReport {e : KernelEmu} {kind : FindingKind} {pos rip : UInt64} {addr : Nat}
    {bytes : UInt32} {origin : ChunkOrigin} :
    Reports e (e.kernelReport kind pos rip addr bytes origin) :=
  report_ne _ _

/-! ### The first byte -/

namespace KernelHeap

variable {os : KernelOs} {h : KernelHeap} {c : KernelChunk}

theorem mem_of_chunkAt {addr : Nat} (hat : h.chunkAt addr = some c) :
    c ∈ h.chunks ∧ c.contains addr = true := by
  obtain ⟨i, hi, hget⟩ := Option.bind_eq_some_iff.mp hat
  obtain ⟨-, d, hd, hcontains⟩ := indexOf_eq_some_iff.mp hi
  obtain rfl := Option.some.inj (hd.symm.trans hget)
  exact ⟨List.mem_of_getElem? hget, hcontains⟩

theorem offsetOf_eq {addr : UInt64} (hcontains : c.contains addr.toNat = true) :
    c.addr + c.offsetOf addr.toNat = addr.toNat := by
  simp only [KernelChunk.contains, Bool.and_eq_true, decide_eq_true_eq] at hcontains
  have hlt := addr.toNat_lt
  rw [KernelChunk.offsetOf]
  omega

theorem Sound.badByte_iff (hs : Sound os h) {addr : UInt64} (hat : h.chunkAt addr.toNat = some c) :
    BadByte h addr.toNat ↔ c.isFreed = true ∨ c.reqSize.toNat ≤ c.offsetOf addr.toNat := by
  obtain ⟨hmem, hcontains⟩ := mem_of_chunkAt hat
  have hoffset := offsetOf_eq hcontains
  constructor
  · rintro ⟨d, hd, hdx, hbad⟩
    obtain rfl := hs.ledger.eq_of_contains hmem hd hcontains hdx
    exact hbad.imp_right fun hle => by omega
  · exact fun hbad => ⟨c, hmem, hcontains, hbad.imp_right fun hle => by omega⟩

end KernelHeap

section Access

variable {os : KernelOs} {e : KernelEmu} (pos rip addr : UInt64) (isWrite : Bool)

open KernelHeap

theorem reports_access_iff (hs : Sound os e.kernel.heap) (bytes : UInt32) :
    Reports e (e.kernelGuardAccess pos rip addr bytes isWrite) ↔ isFreePoison addr = true ∨
      BadByte e.kernel.heap addr.toNat ∧ (e.kernel.heap.chunkAt addr.toNat).isSome = true := by
  unfold KernelEmu.kernelGuardAccess
  by_cases hpoison : isFreePoison addr = true
  · rw [if_pos hpoison]
    exact iff_of_true reports_kernelReport (.inl hpoison)
  rw [if_neg hpoison, or_iff_right hpoison]
  cases hat : e.kernel.heap.chunkAt addr.toNat with
  | none => exact iff_of_false (fun hreports => hreports rfl) (fun hbad => by cases hbad.2)
  | some c =>
    rw [hs.badByte_iff hat, Option.isSome_some, eq_self, and_true]
    dsimp only
    by_cases hfreed : c.isFreed = true
    · rw [if_pos hfreed]
      exact iff_of_true reports_kernelReport (.inl hfreed)
    by_cases hover : c.reqSize.toNat ≤ c.offsetOf addr.toNat
    · rw [if_neg hfreed, if_pos hover]
      exact iff_of_true reports_kernelReport (.inr hover)
    · rw [if_neg hfreed, if_neg hover]
      exact iff_of_false (fun hreports => hreports rfl) (not_or.mpr ⟨hfreed, hover⟩)

/-- The first byte decides unless a later one is bad. -/
def AccessDecided (h : KernelHeap) (addr : UInt64) (n : Nat) : Prop :=
  isFreePoison addr = true ∨ ¬BadRange h addr.toNat n ∨
    BadByte h addr.toNat ∧ (h.chunkAt addr.toNat).isSome = true

theorem access_exact_iff (hs : Sound os e.kernel.heap) {bytes : UInt32} (hbytes : 1 ≤ bytes) :
    (Reports e (e.kernelGuardAccess pos rip addr bytes isWrite) ↔
        Misuse e.kernel.heap addr bytes.toNat) ↔ AccessDecided e.kernel.heap addr bytes.toNat := by
  have hfirst : BadByte e.kernel.heap addr.toNat → BadRange e.kernel.heap addr.toNat bytes.toNat :=
    fun hbad => ⟨addr.toNat, Nat.le_refl _, by
      have : 1 ≤ bytes.toNat := hbytes
      omega, hbad⟩
  rw [reports_access_iff pos rip addr isWrite hs, Misuse, AccessDecided]
  tauto

end Access

/-! ### Ranges -/

theorem lt_of_page_eq {addr page : UInt64}
    (hpage : addr &&& 0xfffffffffffff000 = page &&& 0xfffffffffffff000) :
    addr.toNat < page.toNat + 0x1000 := by
  have hnat := congrArg UInt64.toNat hpage
  have hmask : UInt64.toNat 0xfffffffffffff000 = 2 ^ 64 - 2 ^ 12 := rfl
  rw [UInt64.toNat_and, UInt64.toNat_and, hmask, and_two_pow_sub_two_pow (by decide) addr.toNat_lt,
    and_two_pow_sub_two_pow (by decide) page.toNat_lt] at hnat
  omega

theorem KernelHeap.Sound.not_poison {os : KernelOs} {h : KernelHeap} {c : KernelChunk}
    (hs : Sound os h) {addr : UInt64} (hat : h.chunkAt addr.toNat = some c) :
    isFreePoison addr = false := by
  obtain ⟨hmem, hcontains⟩ := mem_of_chunkAt hat
  simp only [KernelChunk.contains, Bool.and_eq_true, decide_eq_true_eq] at hcontains
  have hlow := hs.low c hmem
  have hwindow : 0x6b6b6b6b6b6b7b6b ≤ (KernelLayout.forOs os).base c.region := by
    cases os <;> cases c.region <;> decide
  by_contra hpoison
  rw [Bool.not_eq_false, isFreePoison, decide_eq_true_eq] at hpoison
  rcases hpoison with hpage | hpage
  · have hlt := lt_of_page_eq hpage
    have hpage : UInt64.toNat 0x6b6b6b6b6b6b6b6b = 0x6b6b6b6b6b6b6b6b := rfl
    omega
  · have hlt := lt_of_page_eq hpage
    have hpage : UInt64.toNat 0x6b6b6b6b = 0x6b6b6b6b := rfl
    omega

section Range

variable {os : KernelOs} {e : KernelEmu} (pos rip addr len : UInt64) (isWrite : Bool)

open KernelHeap

/-- The chunk in which a range starts decides: it is freed, or the range stays within what was asked
for, or some byte of the range is bad, or there is no such chunk and no such byte. -/
def RangeDecided (h : KernelHeap) (addr len : UInt64) : Prop :=
  isFreePoison addr = false ∧ (len = 0 ∨
    match h.chunkAt addr.toNat with
    | none => ¬BadRange h addr.toNat len.toNat
    | some c => c.isFreed = true ∨ c.offsetOf addr.toNat + len.toNat < 2 ^ 64 ∧
        (addr.toNat + len.toNat ≤ c.addr + c.reqSize.toNat ∨ BadRange h addr.toNat len.toNat))

/-- The guard returns and reports the range just when there is misuse. -/
def RangeExact (e : KernelEmu) : Prop :=
  ∃ e', e.kernelGuardRange pos rip addr len isWrite = some e' ∧
    (Reports e e' ↔ Misuse e.kernel.heap addr len.toNat)

theorem rangeExact_of_eq {e' : KernelEmu}
    (hguard : e.kernelGuardRange pos rip addr len isWrite = some e') :
    RangeExact pos rip addr len isWrite e ↔
      (Reports e e' ↔ Misuse e.kernel.heap addr len.toNat) := by
  constructor
  · rintro ⟨e₁, hguard₁, hexact⟩
    obtain rfl := Option.some.inj (hguard.symm.trans hguard₁)
    exact hexact
  · exact fun hexact => ⟨e', hguard, hexact⟩

theorem not_reports_self (e : KernelEmu) : ¬Reports e e := fun hreports => hreports rfl

theorem KernelHeap.Sound.not_badRange {h : KernelHeap} {c : KernelChunk} (hs : Sound os h)
    (hat : h.chunkAt addr.toNat = some c) (hlive : ¬c.isFreed = true)
    (hstop : addr.toNat + len.toNat ≤ c.addr + c.reqSize.toNat) :
    ¬BadRange h addr.toNat len.toNat := by
  obtain ⟨hmem, hcontains⟩ := mem_of_chunkAt hat
  have hfits := hs.fits c hmem
  simp only [KernelChunk.contains, Bool.and_eq_true, decide_eq_true_eq] at hcontains
  rintro ⟨x, hlow, hhigh, d, hd, hdx, hbad⟩
  have hcx : c.contains x = true := by
    simp only [KernelChunk.contains, Bool.and_eq_true, decide_eq_true_eq]
    omega
  obtain rfl := hs.ledger.eq_of_contains hmem hd hcx hdx
  rcases hbad with hfreed | hbeyond
  · exact hlive hfreed
  · omega

theorem badRange_zero (h : KernelHeap) (addr : Nat) : ¬BadRange h addr 0 := by
  rintro ⟨x, hlow, hhigh, -⟩
  exact Nat.not_lt.mpr hlow hhigh

theorem toNat_pos_of_ne_zero {len : UInt64} (hlen : len ≠ 0) : 0 < len.toNat :=
  Nat.pos_of_ne_zero fun hzero => hlen (UInt64.toNat_inj.mp hzero)

section Chunk

variable {c : KernelChunk} (hs : Sound os e.kernel.heap) (hlen : len ≠ 0)
  (hat : e.kernel.heap.chunkAt addr.toNat = some c)
include hs hlen hat

omit hlen in
theorem misuse_iff_badRange : Misuse e.kernel.heap addr len.toNat ↔
    BadRange e.kernel.heap addr.toNat len.toNat := by
  rw [Misuse, hs.not_poison hat]
  exact or_iff_right Bool.false_ne_true

theorem rangeExact_freed (hfreed : c.isFreed = true) : RangeExact pos rip addr len isWrite e := by
  obtain ⟨hmem, hcontains⟩ := mem_of_chunkAt hat
  have hpos := toNat_pos_of_ne_zero hlen
  refine ⟨e.kernelReport (accessKind isWrite) pos rip addr.toNat len.toUInt32 c.origin, ?_, ?_⟩
  · rw [KernelEmu.kernelGuardRange, if_neg hlen, hat]
    exact if_pos hfreed
  · rw [misuse_iff_badRange addr len hs hat]
    exact iff_of_true reports_kernelReport ⟨addr.toNat, Nat.le_refl _, by omega, c, hmem, hcontains,
      .inl hfreed⟩

omit hs in
theorem kernelGuardRange_live (hlive : ¬c.isFreed = true) :
    e.kernelGuardRange pos rip addr len isWrite = e.kernelGuardLive pos rip addr len c := by
  rw [KernelEmu.kernelGuardRange, if_neg hlen, hat]
  exact if_neg hlive

theorem rangeExact_live_iff (hlive : ¬c.isFreed = true)
    (hfits : c.offsetOf addr.toNat + len.toNat < 2 ^ 64) : RangeExact pos rip addr len isWrite e ↔
      addr.toNat + len.toNat ≤ c.addr + c.reqSize.toNat ∨
        BadRange e.kernel.heap addr.toNat len.toNat := by
  obtain ⟨hmem, hcontains⟩ := mem_of_chunkAt hat
  have hoffset := offsetOf_eq hcontains
  have hmisuse := misuse_iff_badRange addr len hs hat
  have hstep := kernelGuardRange_live pos rip addr len isWrite hlen hat hlive
  rw [KernelEmu.kernelGuardLive, addU64, if_pos hfits, Option.bind_eq_bind, Option.bind_some]
    at hstep
  by_cases hover : c.reqSize.toNat < c.offsetOf addr.toNat + len.toNat
  · have hreq := hs.fits c hmem
    have hstop := hs.stop_lt hmem
    have hbeyond : ¬addr.toNat + len.toNat ≤ c.addr + c.reqSize.toNat := by omega
    rw [if_pos hover, addU64, if_pos (by omega), Option.bind_some] at hstep
    rw [rangeExact_of_eq pos rip addr len isWrite hstep, hmisuse, or_iff_right hbeyond]
    exact iff_true_left reports_kernelReport
  · have hstop : addr.toNat + len.toNat ≤ c.addr + c.reqSize.toNat := by omega
    rw [if_neg hover] at hstep
    rw [rangeExact_of_eq pos rip addr len isWrite hstep, hmisuse]
    exact iff_of_true (iff_of_false (not_reports_self e)
      (hs.not_badRange addr len hat hlive hstop)) (.inl hstop)

omit hs in
theorem not_rangeExact_overflow (hlive : ¬c.isFreed = true)
    (hfits : ¬c.offsetOf addr.toNat + len.toNat < 2 ^ 64) :
    ¬RangeExact pos rip addr len isWrite e := by
  rintro ⟨e', hguard, -⟩
  rw [kernelGuardRange_live pos rip addr len isWrite hlen hat hlive, KernelEmu.kernelGuardLive,
    addU64, if_neg hfits] at hguard
  cases hguard

end Chunk

theorem range_exact_iff (hs : Sound os e.kernel.heap) :
    RangeExact pos rip addr len isWrite e ↔ RangeDecided e.kernel.heap addr len := by
  unfold RangeDecided
  by_cases hlen : len = 0
  · subst hlen
    have hguard : e.kernelGuardRange pos rip addr 0 isWrite = some e := if_pos rfl
    have hempty : ¬BadRange e.kernel.heap addr.toNat (UInt64.toNat 0) :=
      badRange_zero e.kernel.heap addr.toNat
    rw [rangeExact_of_eq pos rip addr 0 isWrite hguard, Misuse, or_iff_left hempty,
      and_iff_left (.inl rfl), ← Bool.not_eq_true]
    exact iff_false_left (not_reports_self e)
  rw [or_iff_right hlen]
  cases hat : e.kernel.heap.chunkAt addr.toNat with
  | none =>
    have hguard : e.kernelGuardRange pos rip addr len isWrite = some e := by
      rw [KernelEmu.kernelGuardRange, if_neg hlen, hat]
    rw [rangeExact_of_eq pos rip addr len isWrite hguard, Misuse, ← Bool.not_eq_true, ← not_or]
    exact iff_false_left (not_reports_self e)
  | some c =>
    rw [and_iff_right (hs.not_poison hat)]
    dsimp only
    by_cases hfreed : c.isFreed = true
    · exact iff_of_true (rangeExact_freed pos rip addr len isWrite hs hlen hat hfreed) (.inl hfreed)
    rw [or_iff_right hfreed]
    by_cases hfits : c.offsetOf addr.toNat + len.toNat < 2 ^ 64
    · rw [and_iff_right hfits]
      exact rangeExact_live_iff pos rip addr len isWrite hs hlen hat hfreed hfits
    · exact iff_of_false (not_rangeExact_overflow pos rip addr len isWrite hlen hat hfreed hfits)
        fun hdecided => hfits hdecided.1

end Range

/-- Along every run, an access is reported just when there is misuse if and only if its first byte
decides, and a range if and only if the chunk in which it starts decides. -/
theorem guard_exact_iff (os : KernelOs) (m : Maps) (e₀ e : KernelEmu) (ops : List KernelOp)
    (hinit : kernelInit m os = some e₀) (hrun : run KernelOp.step e₀ ops = some e)
    (pos rip addr : UInt64) (isWrite : Bool) : (∀ bytes : UInt32, 1 ≤ bytes →
      ((Reports e (e.kernelGuardAccess pos rip addr bytes isWrite) ↔
          Misuse e.kernel.heap addr bytes.toNat) ↔ AccessDecided e.kernel.heap addr bytes.toNat)) ∧
      ∀ len : UInt64, RangeExact pos rip addr len isWrite e ↔
        RangeDecided e.kernel.heap addr len := by
  have hs := sound_of_run hinit hrun
  exact ⟨fun bytes hbytes => access_exact_iff pos rip addr isWrite hs hbytes,
    fun len => range_exact_iff pos rip addr len isWrite hs⟩

def kmalloc (size : UInt64) : AllocCall := ⟨.slab, size, "kmalloc", "__kmalloc", 0, 0⟩

theorem run_kmalloc_sixty : ∃ e₀ e : KernelEmu, kernelInit Maps.default .linux = some e₀ ∧
    run KernelOp.step e₀ [.alloc (kmalloc 60) false] = some e ∧
      ∃ c, e.kernel.heap.chunks = [c] ∧ c.addr = 0xffff888000000000 ∧ c.size = 64 ∧
        c.reqSize = 60 ∧ c.isFreed = false := by
  obtain ⟨m, hinit, hm⟩ := kernelInit_default .linux
  have hinv := allocInv_init hm
  have hres : KernelHeap.Reserves (KernelHeap.forOs .linux) (kmalloc 60) 64 0xffff888000000000 :=
    ⟨by decide, by decide, by decide⟩
  obtain ⟨h', c, hrec, haddr, hsize⟩ := hres.recordAlloc (by decide) (by decide)
  obtain ⟨e₁, halloc, -, -, hgranted⟩ := hinv.granted hrec false fun _ hslab => by cases hslab
  have hfresh := fresh_of_recordAlloc (e := ⟨m, KernelEnv.new .linux⟩) hrec
  refine ⟨_, e₁, hinit, ?_, c, hgranted.recorded, haddr, hsize, hfresh.reqSize, ?_⟩
  · rw [run, KernelOp.step, halloc]
    rfl
  · rw [KernelChunk.isFreed, hfresh.live]
    rfl

theorem guard_exact_iff_kmalloc_sixty :
    ∃ e₀ e : KernelEmu, kernelInit Maps.default .linux = some e₀ ∧
      run KernelOp.step e₀ [.alloc (kmalloc 60) false] = some e ∧ (∀ bytes : UInt32, 1 ≤ bytes →
        ((Reports e (e.kernelGuardAccess 0 0 0xffff888000000000 bytes true) ↔
            Misuse e.kernel.heap 0xffff888000000000 bytes.toNat) ↔
          AccessDecided e.kernel.heap 0xffff888000000000 bytes.toNat)) ∧
        ∀ len : UInt64, RangeExact 0 0 0xffff888000000000 len true e ↔
          RangeDecided e.kernel.heap 0xffff888000000000 len := by
  obtain ⟨e₀, e, hinit, hrun, -⟩ := run_kmalloc_sixty
  exact ⟨e₀, e, hinit, hrun,
    guard_exact_iff .linux Maps.default e₀ e _ hinit hrun 0 0 0xffff888000000000 true⟩

/-- Eight bytes from the fifty-sixth on leave the request in the middle and are not reported. -/
theorem access_across_request : ∃ e₀ e : KernelEmu, kernelInit Maps.default .linux = some e₀ ∧
      run KernelOp.step e₀ [.alloc (kmalloc 60) false] = some e ∧
        Misuse e.kernel.heap 0xffff888000000038 8 ∧
          ¬Reports e (e.kernelGuardAccess 0 0 0xffff888000000038 8 true) := by
  obtain ⟨e₀, e, hinit, hrun, c, hchunks, haddr, hsize, hreq, hlive⟩ := run_kmalloc_sixty
  have hbad : ∀ x, BadByte e.kernel.heap x ↔ 0xffff88800000003c ≤ x ∧ x < 0xffff888000000040 := by
    intro x
    simp only [BadByte, hchunks, List.mem_singleton, exists_eq_left, KernelChunk.contains, haddr,
      hsize, hreq, hlive, Bool.and_eq_true, decide_eq_true_eq, Bool.false_eq_true, false_or]
    rw [show UInt64.toNat 60 = 60 from rfl]
    omega
  refine ⟨e₀, e, hinit, hrun, .inr ⟨0xffff88800000003c, by decide, by decide, ?_⟩, ?_⟩
  · exact (hbad _).mpr (by decide)
  rw [reports_access_iff 0 0 _ true (sound_of_run hinit hrun)]
  rintro (hpoison | ⟨hfirst, -⟩)
  · revert hpoison
    decide
  · have hlow := ((hbad _).mp hfirst).1
    revert hlow
    decide

end Mwemu.Kernel
