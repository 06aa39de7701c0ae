import Mwemu.Maps.Writes

/-!
# Accesses inside one region

On a well-formed store an access that stays in one region is exact: a read returns the region's
bytes, a write replaces them, and apart from the lookup buffer nothing else changes. Consecutive
writes then compose to one.
-/

namespace Mwemu

open Mwemu.Lib List Option Nat

/-! ### Little-endian values -/

theorem leValue_cons (b : UInt8) (bytes : List UInt8) :
    leValue (b :: bytes) = b.toNat + 256 * leValue bytes := rfl

theorem leBytes_succ (size value : Nat) :
    leBytes (size + 1) value = UInt8.ofNat value :: leBytes size (value / 256) := by
  rw [leBytes, List.range_succ_eq_map, List.map_cons, List.map_map, leBytes]
  congr 1
  · rw [Nat.pow_zero, Nat.div_one]
  · refine map_congr_left fun i _ => ?_
    rw [Function.comp_apply, Nat.succ_eq_add_one, Nat.pow_succ', Nat.div_div_eq_div_mul]

theorem leBytes_leValue (bytes : List UInt8) : leBytes bytes.length (leValue bytes) = bytes := by
  induction bytes with
  | nil => rfl
  | cons b bytes ih =>
    have hb := b.toNat_lt
    have hlow : UInt8.ofNat (b.toNat + 256 * leValue bytes) = b := by
      rw [← UInt8.toNat_inj, UInt8.toNat_ofNat']
      omega
    have hhigh : (b.toNat + 256 * leValue bytes) / 256 = leValue bytes := by omega
    rw [length_cons, leValue_cons, leBytes_succ, hlow, hhigh, ih]

theorem leValue_lt (bytes : List UInt8) : leValue bytes < 256 ^ bytes.length := by
  induction bytes with
  | nil => decide
  | cons b bytes ih =>
    have hb := b.toNat_lt
    rw [leValue_cons, length_cons, Nat.pow_succ]
    omega

theorem leBytes_mod (size value : Nat) : leBytes size (value % 256 ^ size) = leBytes size value := by
  induction size generalizing value with
  | zero => rfl
  | succ size ih =>
    have hlow : UInt8.ofNat (value % 256 ^ (size + 1)) = UInt8.ofNat value := by
      rw [← UInt8.toNat_inj, UInt8.toNat_ofNat', UInt8.toNat_ofNat', pow_succ']
      exact mod_mul_right_mod _ _ _
    have hhigh : value % 256 ^ (size + 1) / 256 = value / 256 % 256 ^ size := by
      rw [pow_succ', mod_mul_right_div_self]
    rw [leBytes_succ, leBytes_succ, hlow, hhigh, ih]

namespace Mem64

def overwrite (r : Mem64) (addr : Nat) (bs : List UInt8) : Mem64 :=
  { r with mem := copyAt r.mem (addr - r.baseAddr) bs }

/-- The range `[addr, addr + len)` lies in the region, whose bytes fill it. -/
structure Spans (r : Mem64) (addr len : Nat) : Prop where
  low : r.baseAddr ≤ addr
  high : addr + len ≤ r.bottomAddr
  sized : r.bottomAddr = r.baseAddr + r.size

variable {r : Mem64} {addr : Nat} {bs bs' : List UInt8}

variable {len a : Nat}

theorem Spans.sub {len' : Nat} (hspans : r.Spans addr len) (hlow : addr ≤ a)
    (hhigh : a + len' ≤ addr + len) : r.Spans a len' :=
  ⟨hspans.low.trans hlow, hhigh.trans hspans.high, hspans.sized⟩

theorem Spans.fits (hspans : r.Spans addr len) : addr - r.baseAddr + len ≤ r.mem.length := by
  have hlow := hspans.low
  have hhigh := hspans.high
  have hsized : r.bottomAddr = r.baseAddr + r.mem.length := hspans.sized
  omega

theorem Spans.inside (hspans : r.Spans addr len) {x : Nat} (hlow : addr ≤ x)
    (hhigh : x < addr + len) : r.inside x = true := by
  rw [Maps.inside_eq_true]
  have := hspans.low
  have := hspans.high
  omega

theorem Spans.size_overwrite (hspans : r.Spans addr bs.length) :
    (r.overwrite addr bs).size = r.size :=
  length_copyAt hspans.fits

theorem Spans.overwrite (hrange : r.Spans a len) (hspans : r.Spans addr bs.length) :
    (r.overwrite addr bs).Spans a len :=
  ⟨hrange.low, hrange.high, hspans.size_overwrite ▸ hrange.sized⟩

theorem Spans.overwrite_append (hspans : r.Spans addr (bs.length + bs'.length)) :
    (r.overwrite addr bs).overwrite (addr + bs.length) bs' = r.overwrite addr (bs ++ bs') := by
  have hlow := hspans.low
  have hfits := hspans.fits
  have hfits₁ : addr - r.baseAddr + bs.length ≤ r.mem.length := by omega
  have hbytes : copyAt (copyAt r.mem (addr - r.baseAddr) bs) (addr + bs.length - r.baseAddr) bs' =
      copyAt r.mem (addr - r.baseAddr) (bs ++ bs') := by
    refine ext_getElem? fun j => ?_
    rw [getElem?_copyAt (by rw [length_copyAt hfits₁]; omega), getElem?_copyAt hfits₁,
      getElem?_copyAt (by rw [length_append]; omega), length_append]
    by_cases hfirst : addr - r.baseAddr ≤ j ∧ j < addr - r.baseAddr + bs.length
    · rw [if_neg (by omega), if_pos hfirst, if_pos (by omega), List.getElem?_append_left (by omega)]
    rw [if_neg hfirst]
    split
    · next hsecond =>
      rw [if_pos (by omega), List.getElem?_append_right (by omega)]
      congr 1
      omega
    · rw [if_neg (by omega)]
  rw [Mem64.overwrite, Mem64.overwrite, hbytes]
  rfl

theorem overwrite_nil (r : Mem64) (addr : Nat) : r.overwrite addr [] = r := by
  rw [overwrite, copyAt, append_nil, length_nil, Nat.add_zero, take_append_drop]

/-! ### Reads of a spanned range -/

variable {sz : Nat}

theorem Spans.readBytes_eq (hspans : r.Spans addr sz) (hread : r.canRead = true) :
    r.readBytes addr sz = (r.mem.drop (addr - r.baseAddr)).take sz := by
  rw [readBytes, if_pos hread]
  have hlow := hspans.low
  split
  · next hend =>
    have hfits := hspans.fits
    have hzero : sz = 0 := by omega
    rw [hzero, take_zero]
  · rw [if_neg (by omega)]

theorem Spans.length_readBytes (hspans : r.Spans addr sz) (hread : r.canRead = true) :
    (r.readBytes addr sz).length = sz := by
  have hfits := hspans.fits
  rw [hspans.readBytes_eq hread, length_take, length_drop]
  omega

theorem Spans.readBytes_add {n k : Nat} (hspans : r.Spans addr (n + k)) (hread : r.canRead = true) :
    r.readBytes addr (n + k) = r.readBytes addr n ++ r.readBytes (addr + n) k := by
  have hlow := hspans.low
  have hidx : addr + n - r.baseAddr = addr - r.baseAddr + n := by omega
  rw [hspans.readBytes_eq hread, (hspans.sub (le_refl addr) (by omega)).readBytes_eq hread,
    (hspans.sub (le_add_right addr n) (by omega)).readBytes_eq hread, take_add,
    drop_drop, hidx]

theorem Spans.readBytes_overwrite (hrange : r.Spans a sz) (hspans : r.Spans addr bs.length)
    (hread : r.canRead = true) (hapart : a + sz ≤ addr ∨ addr + bs.length ≤ a) :
    (r.overwrite addr bs).readBytes a sz = r.readBytes a sz := by
  have hlow := hspans.low
  have hlow' := hrange.low
  rw [(hrange.overwrite hspans).readBytes_eq hread, hrange.readBytes_eq hread]
  refine ext_getElem? fun j => ?_
  rw [List.getElem?_take, List.getElem?_take]
  split
  · rw [List.getElem?_drop, List.getElem?_drop, Mem64.overwrite, getElem?_copyAt hspans.fits,
      if_neg (by dsimp only; omega)]
  · rfl

end Mem64

namespace Maps

variable {m : Maps}

/-- The region of `key` spans the range, in a well-formed store. -/
structure Covers (m : Maps) (key : Nat) (r : Mem64) (addr len : Nat) : Prop where
  wf : m.Wf
  get : m.memSlab.get key = some r
  spans : r.Spans addr len

def patch (m : Maps) (key : Nat) (r : Mem64) (addr : Nat) (bs : List UInt8) : Maps :=
  { m with memSlab := m.memSlab.set key (r.overwrite addr bs) }

variable {key addr : Nat} {r : Mem64} {bs : List UInt8}

variable {len : Nat}

theorem Wf.covers (hwf : m.Wf) (hfound : m.searchMaps addr = some (key, r)) (hlen : 0 < len)
    (hstop : r.inside (addr + (len - 1)) = true) : m.Covers key r addr len := by
  obtain ⟨hget, hinside⟩ := hwf.searchMaps_eq_some.mp hfound
  rw [inside_eq_true] at hinside hstop
  exact ⟨hwf, hget, hinside.1, by omega, hwf.sized key r hget⟩

namespace Covers

variable {len : Nat} (hcovers : m.Covers key r addr len)
include hcovers

theorem sub {a len' : Nat} (hlow : addr ≤ a) (hhigh : a + len' ≤ addr + len) :
    m.Covers key r a len' :=
  ⟨hcovers.wf, hcovers.get, hcovers.spans.sub hlow hhigh⟩

theorem withTlb (tlb : Tlb) : Covers { m with tlb := tlb } key r addr len :=
  ⟨hcovers.wf.congr rfl rfl rfl, hcovers.get, hcovers.spans⟩

theorem lt_two_pow : addr + len < 2 ^ 64 := by
  have hbounded := hcovers.wf.bounded key r hcovers.get
  have hhigh := hcovers.spans.high
  rw [u64Max] at hbounded
  omega

theorem searchMaps (hlen : 0 < len) : m.searchMaps addr = some (key, r) :=
  hcovers.wf.searchMaps_eq_some.mpr
    ⟨hcovers.get, hcovers.spans.inside (le_refl addr) (by omega)⟩

theorem inside_stop (hlen : 0 < len) : r.inside (addr + (len - 1)) = true :=
  hcovers.spans.inside (by omega) (by omega)

theorem getMemByAddr (hlen : 0 < len) :
    ∃ tlb, m.getMemByAddr addr = (some (key, r), { m with tlb := tlb }) := by
  rw [← hcovers.searchMaps hlen]
  exact hcovers.wf.getMemByAddr_eq addr

theorem getMemByAddrMut (hlen : 0 < len) :
    ∃ tlb, m.getMemByAddrMut addr = (some (key, r), { m with tlb := tlb }) := by
  rw [← hcovers.searchMaps hlen]
  exact hcovers.wf.getMemByAddrMut_eq addr

/-! ### Reads -/

theorem readScalar (hlen : 0 < len) (hread : r.canRead = true) :
    ∃ tlb, m.readScalar len addr = (some (leValue (r.readBytes addr len)),
      { m with tlb := tlb }) := by
  have hlt := hcovers.lt_two_pow
  obtain ⟨tlb, hlookup⟩ := hcovers.getMemByAddr hlen
  refine ⟨tlb, ?_⟩
  rw [Maps.readScalar, if_neg (by omega), hlookup]
  simp only [hcovers.inside_stop hlen, hread, Bool.and_self, if_pos]

theorem tryReadBytes (hlen : 0 < len) (hread : r.canRead = true) :
    ∃ tlb, m.tryReadBytes addr len = (some (r.readBytes addr len), { m with tlb := tlb }) := by
  have hlt := hcovers.lt_two_pow
  have hstop : (addr + len - 1) % 2 ^ 64 = addr + (len - 1) := by
    rw [mod_eq_of_lt (by omega)]
    omega
  obtain ⟨tlb, hlookup⟩ := hcovers.getMemByAddr hlen
  refine ⟨tlb, ?_⟩
  rw [Maps.tryReadBytes, if_neg (by omega), hstop, hlookup]
  simp [hcovers.inside_stop hlen, hread]

theorem readBytes (hlen : 0 < len) (hread : r.canRead = true) :
    ∃ tlb, m.readBytes addr len = some (r.readBytes addr len, { m with tlb := tlb }) := by
  obtain ⟨tlb, htry⟩ := hcovers.tryReadBytes hlen hread
  exact ⟨tlb, by rw [Maps.readBytes, htry]⟩

end Covers

/-! ### Writes -/

namespace Covers

variable (hcovers : m.Covers key r addr bs.length)
include hcovers

theorem wf_patch : (m.patch key r addr bs).Wf := by
  have hchanges : Changes m (m.patch key r addr bs) key (some (r.overwrite addr bs)) :=
    hcovers.wf.changes_set hcovers.get rfl rfl rfl rfl rfl (le_refl _)
      (hcovers.spans.size_overwrite ▸ hcovers.spans.sized)
  exact hchanges.wf hcovers.wf

theorem patch {key' a : Nat} {r' : Mem64} (hother : m.Covers key' r' a len) :
    (m.patch key r addr bs).Covers key' (if key' = key then r'.overwrite addr bs else r') a len := by
  have hlive : (m.memSlab.get key).isSome := by rw [hcovers.get, isSome_some]
  have hget : (m.patch key r addr bs).memSlab.get key' =
      if key' = key then some (r.overwrite addr bs) else m.memSlab.get key' :=
    Slab.get_set _ hlive _ _
  refine ⟨hcovers.wf_patch, hget.trans ?_, ?_⟩
  · split
    · next heq =>
      obtain rfl := heq
      obtain rfl := Option.some.inj (hcovers.get.symm.trans hother.get)
      rfl
    · exact hother.get
  · split
    · next heq =>
      obtain rfl := heq
      obtain rfl := Option.some.inj (hcovers.get.symm.trans hother.get)
      exact hother.spans.overwrite hcovers.spans
    · exact hother.spans

theorem bulkWrite_noteIf (hlen : 0 < bs.length) (hwrite : r.canWrite = true) :
    ∃ tlb, m.bulkWrite addr (addr + (bs.length - 1)) bs =
      some (.done, { m.patch key r addr bs with tlb := tlb }.noteIf r.canExecute addr
        bs.length) := by
  obtain ⟨tlb, hlookup⟩ := hcovers.getMemByAddrMut hlen
  refine ⟨tlb, ?_⟩
  have hstore : r.writeBytes addr bs = some (r.overwrite addr bs) := by
    rw [Mem64.writeBytes, if_pos hwrite]
    exact Mem64.forceWriteBytes_eq hcovers.spans.low hcovers.spans.fits
  rw [Maps.bulkWrite, hlookup]
  simp only [hcovers.inside_stop hlen, hwrite, Bool.and_self, if_pos, Maps.storeBytes, hstore,
    map_some]
  rfl

theorem bulkWrite (hlen : 0 < bs.length) (hwrite : r.canWrite = true)
    (hexec : r.canExecute = false) : ∃ tlb, m.bulkWrite addr (addr + (bs.length - 1)) bs =
      some (.done, { m.patch key r addr bs with tlb := tlb }) := by
  obtain ⟨tlb, hbulk⟩ := hcovers.bulkWrite_noteIf hlen hwrite
  rw [hexec] at hbulk
  exact ⟨tlb, hbulk⟩

theorem writeBytes (hlen : 0 < bs.length) (hwrite : r.canWrite = true)
    (hexec : r.canExecute = false) :
    ∃ tlb, m.writeBytes addr bs = some (true, { m.patch key r addr bs with tlb := tlb }) := by
  have hlt := hcovers.lt_two_pow
  obtain ⟨tlb, hbulk⟩ := hcovers.bulkWrite hlen hwrite hexec
  refine ⟨tlb, ?_⟩
  rw [Maps.writeBytes, if_neg (length_pos_iff.mp hlen), if_neg (by omega), hbulk]
  rfl

end Covers

variable {size : Nat}

theorem Covers.writeScalar (hcovers : m.Covers key r addr size) (hsize : 0 < size)
    (hwrite : r.canWrite = true) (hexec : r.canExecute = false) (value : Nat) :
    ∃ tlb, m.writeScalar size addr value =
      some (true, { m.patch key r addr (leBytes size value) with tlb := tlb }) := by
  have hlt := hcovers.lt_two_pow
  -- the first lookup, for a scalar that crosses a boundary, only moves the buffer
  obtain ⟨tlb₁, hlookup⟩ := hcovers.wf.lookup size addr
  have hnone : crossing { m with tlb := tlb₁ } (if 1 < size then m.searchMaps addr else none)
      addr (addr + (size - 1)) size = none := by
    rw [hcovers.searchMaps hsize]
    split <;> simp [crossing, hcovers.inside_stop hsize]
  have hlength := length_leBytes size value
  have hcovers₁ : Covers { m with tlb := tlb₁ } key r addr (leBytes size value).length :=
    hlength.symm ▸ hcovers.withTlb tlb₁
  obtain ⟨tlb, hbulk⟩ := hcovers₁.bulkWrite (hlength.symm ▸ hsize) hwrite hexec
  rw [hlength] at hbulk
  refine ⟨tlb, ?_⟩
  simp only [Maps.writeScalar]
  rw [if_neg (by omega), hlookup]
  simp only [hnone, hbulk, map_some]
  rfl

theorem patch_nil (hget : m.memSlab.get key = some r) (addr : Nat) : m.patch key r addr [] = m := by
  rw [patch, Mem64.overwrite_nil, Slab.set_get _ hget]

theorem Covers.patch_patch {bs' : List UInt8} {tlb : Tlb}
    (hcovers : m.Covers key r addr (bs.length + bs'.length)) :
    Maps.patch { m.patch key r addr bs with tlb := tlb } key (r.overwrite addr bs)
        (addr + bs.length) bs' =
      { m.patch key r addr (bs ++ bs') with tlb := tlb } := by
  have hlive : (m.memSlab.get key).isSome := by rw [hcovers.get, isSome_some]
  rw [Maps.patch, hcovers.spans.overwrite_append, Maps.patch, Maps.patch]
  simp only [Slab.set_set _ hlive]

theorem Covers.writeScalar_next (hcovers : m.Covers key r addr len)
    (hfits : bs.length + size ≤ len) (hsize : 0 < size) (hwrite : r.canWrite = true)
    (hexec : r.canExecute = false) (value : Nat) (tlb : Tlb) :
    ∃ tlb', Maps.writeScalar { m.patch key r addr bs with tlb := tlb } size (addr + bs.length) value =
      some (true, { m.patch key r addr (bs ++ leBytes size value) with tlb := tlb' }) := by
  have hfirst : m.Covers key r addr bs.length := hcovers.sub (le_refl addr) (by omega)
  have hnext : m.Covers key r (addr + bs.length) size :=
    hcovers.sub (le_add_right addr _) (by omega)
  have hboth : m.Covers key r addr (bs.length + (leBytes size value).length) :=
    hcovers.sub (le_refl addr) (by rw [length_leBytes]; omega)
  have hpatched := (hfirst.patch hnext).withTlb tlb
  rw [if_pos rfl] at hpatched
  obtain ⟨tlb', hscalar⟩ := hpatched.writeScalar hsize hwrite hexec value
  exact ⟨tlb', by rw [hscalar, hboth.patch_patch]⟩

variable {a : Nat}

theorem Covers.readScalar_patch {key' : Nat} {r' : Mem64}
    (hcovers : m.Covers key r addr bs.length) (hother : m.Covers key' r' a size)
    (hsize : 0 < size) (hread : r'.canRead = true)
    (hapart : a + size ≤ addr ∨ addr + bs.length ≤ a) (tlb : Tlb) :
    ∃ tlb', Maps.readScalar { m.patch key r addr bs with tlb := tlb } size a =
      (some (leValue (r'.readBytes a size)), { m.patch key r addr bs with tlb := tlb' }) := by
  have hpatched := (hcovers.patch hother).withTlb tlb
  by_cases heq : key' = key
  · obtain rfl := heq
    obtain rfl := Option.some.inj (hcovers.get.symm.trans hother.get)
    rw [if_pos rfl] at hpatched
    obtain ⟨tlb', hscalar⟩ := hpatched.readScalar hsize hread
    exact ⟨tlb', by rw [hscalar, hother.spans.readBytes_overwrite hcovers.spans hread hapart]⟩
  · rw [if_neg heq] at hpatched
    exact hpatched.readScalar hsize hread

end Maps

end Mwemu
