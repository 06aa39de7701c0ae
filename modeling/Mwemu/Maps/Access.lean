import Mwemu.Maps.Bytes
import Mwemu.Maps.Runs

/-!
# Accesses to ranges

A scalar access should be the access to each of its bytes. It is, for ranges in one region or in two
adjacent ones: `read_scalar` and `write_scalar` never look at a third.
-/

namespace Mwemu

open Mwemu.Lib List Option

namespace Maps

variable {m m' : Maps} {addr size value : Nat} {allowed : Mem64 → Bool}

def readByte (m : Maps) (addr : Nat) : Option Nat × Maps :=
  m.readScalar 1 addr

/-- Every byte of the range is in a region that allows the access. -/
def Allows (m : Maps) (allowed : Mem64 → Bool) (addr size : Nat) : Prop :=
  ∀ x, addr ≤ x → x < addr + size →
    ∃ key r, m.memSlab.get key = some r ∧ r.inside x = true ∧ allowed r = true

/-- The range lies in a region that allows the access, or in two such of which the second starts
where the first ends. -/
def Reaches (m : Maps) (allowed : Mem64 → Bool) (addr size : Nat) : Prop :=
  ∃ key r, m.memSlab.get key = some r ∧ r.inside addr = true ∧ allowed r = true ∧
    (r.inside (addr + (size - 1)) = true ∨
      ∃ key' r', m.memSlab.get key' = some r' ∧ r'.baseAddr = r.bottomAddr ∧
        r'.inside (addr + (size - 1)) = true ∧ allowed r' = true)

/-- The range lies in one region or in two adjacent ones. -/
def InTwoRegions (m : Maps) (addr size : Nat) : Prop :=
  m.Reaches (fun _ => true) addr size

variable {x : Nat}

theorem Wf.eq_of_inside (hwf : m.Wf) {k₁ k₂ : Nat} {r₁ r₂ : Mem64}
    (h₁ : m.memSlab.get k₁ = some r₁) (h₂ : m.memSlab.get k₂ = some r₂)
    (hin₁ : r₁.inside x = true) (hin₂ : r₂.inside x = true) : k₁ = k₂ ∧ r₁ = r₂ := by
  have hsame := (hwf.searchMaps_eq_some.mpr ⟨h₁, hin₁⟩).symm.trans
    (hwf.searchMaps_eq_some.mpr ⟨h₂, hin₂⟩)
  exact Prod.mk.inj (Option.some.inj hsame)

theorem Wf.reaches_iff (hwf : m.Wf) (hsize : 0 < size) :
    m.Reaches allowed addr size ↔ m.Allows allowed addr size ∧ m.InTwoRegions addr size := by
  constructor
  · rintro ⟨key, r, hget, hinside, hallowed, hstop⟩
    constructor
    · intro x hlow hhigh
      rw [inside_eq_true] at hinside
      by_cases hfirst : x < r.bottomAddr
      · exact ⟨key, r, hget, inside_eq_true.mpr ⟨by omega, hfirst⟩, hallowed⟩
      rcases hstop with hstop | ⟨key', r', hget', hbase, hstop, hallowed'⟩
      · rw [inside_eq_true] at hstop
        omega
      · rw [inside_eq_true] at hstop
        exact ⟨key', r', hget', inside_eq_true.mpr ⟨by omega, by omega⟩, hallowed'⟩
    · refine ⟨key, r, hget, hinside, rfl, ?_⟩
      rcases hstop with hstop | ⟨key', r', hget', hbase, hstop, -⟩
      · exact .inl hstop
      · exact .inr ⟨key', r', hget', hbase, hstop, rfl⟩
  · rintro ⟨hallows, key, r, hget, hinside, -, hstop⟩
    -- the region of an address is the one that allows the access there
    have hallowed : ∀ x k r', addr ≤ x → x < addr + size → m.memSlab.get k = some r' →
        r'.inside x = true → allowed r' = true := by
      intro x k r' hlow hhigh hget' hinside'
      obtain ⟨k₁, r₁, hget₁, hinside₁, hallowed₁⟩ := hallows x hlow hhigh
      obtain ⟨-, rfl⟩ := hwf.eq_of_inside hget₁ hget' hinside₁ hinside'
      exact hallowed₁
    refine ⟨key, r, hget, hinside, hallowed addr key r (Nat.le_refl _) (by omega) hget hinside, ?_⟩
    rcases hstop with hstop | ⟨key', r', hget', hbase, hstop, -⟩
    · exact .inl hstop
    · exact .inr ⟨key', r', hget', hbase, hstop,
        hallowed _ key' r' (by omega) (by omega) hget' hstop⟩

theorem Wf.stop_lt (hwf : m.Wf) (hreaches : m.Reaches allowed addr size) :
    addr + (size - 1) < 2 ^ 64 := by
  have hmax : u64Max = 2 ^ 64 - 1 := rfl
  obtain ⟨key, r, hget, -, -, hstop | ⟨key', r', hget', -, hstop, -⟩⟩ := hreaches
  · have hbounded := hwf.bounded key r hget
    rw [inside_eq_true] at hstop
    omega
  · have hbounded := hwf.bounded key' r' hget'
    rw [inside_eq_true] at hstop
    omega

variable {r : Mem64}

theorem Wf.nextMem_isSome_iff (hwf : m.Wf) (hinside : r.inside addr = true)
    (hstop : ¬ r.inside (addr + (size - 1)) = true) :
    (∃ next, m.nextMem r addr size allowed = some next) ↔
      ∃ key' r', m.memSlab.get key' = some r' ∧ r'.baseAddr = r.bottomAddr ∧
        r'.inside (addr + (size - 1)) = true ∧ allowed r' = true := by
  rw [inside_eq_true] at hinside hstop
  have hlast : r.bottomAddr + (size - (r.bottomAddr - addr)) - 1 = addr + (size - 1) := by omega
  constructor
  · rintro ⟨⟨key', next⟩, hnext⟩
    obtain ⟨hbase, hget', hallowed, hinside'⟩ := hwf.nextMem_eq_some hnext
    rw [hlast] at hinside'
    exact ⟨key', next, hget', hbase, hinside', hallowed⟩
  · rintro ⟨key', r', hget', hbase, hinside', hallowed⟩
    have hceil : m.maps.ceil r.bottomAddr = some (r.bottomAddr, key') :=
      OrdMap.ceil_of_mem ((hwf.based _ _).mpr ⟨r', hget', hbase⟩)
    refine ⟨(key', r'), ?_⟩
    simp only [nextMem, bind_eq_bind, hceil, bind_some, hget', hlast]
    exact if_pos ⟨trivial, hallowed, hinside'⟩

/-! ### Scalar reads -/

theorem Wf.peek_isSome_iff (hwf : m.Wf) (hsize : 0 < size) :
    (∃ v, m.peek size addr = some v) ↔ m.Reaches Mem64.canRead addr size := by
  unfold peek
  by_cases hend : 2 ^ 64 ≤ addr + (size - 1)
  · rw [if_pos hend]
    refine ⟨fun ⟨_, hnone⟩ => (nomatch hnone), fun hreaches => ?_⟩
    have hlt := hwf.stop_lt hreaches
    omega
  rw [if_neg hend]
  constructor
  · rintro ⟨v, hv⟩
    obtain ⟨⟨key, r⟩, hfound, hv⟩ := bind_eq_some_iff.mp hv
    obtain ⟨hget, hinside⟩ := hwf.searchMaps_eq_some.mp hfound
    dsimp only at hv
    split at hv
    · next hone =>
      rw [Bool.and_eq_true] at hone
      exact ⟨key, r, hget, hinside, hone.2, .inl hone.1⟩
    split at hv
    · next htwo =>
      simp only [Bool.and_eq_true, Bool.not_eq_true', ← Bool.not_eq_true] at htwo
      obtain ⟨next, hnext, -⟩ := map_eq_some_iff.mp hv
      exact ⟨key, r, hget, hinside, htwo.1.2,
        .inr ((hwf.nextMem_isSome_iff hinside htwo.1.1).mp ⟨next, hnext⟩)⟩
    · cases hv
  · rintro ⟨key, r, hget, hinside, hread, hstop⟩
    rw [hwf.searchMaps_eq_some.mpr ⟨hget, hinside⟩, bind_some]
    dsimp only
    by_cases hone : r.inside (addr + (size - 1)) = true
    · rw [if_pos (by rw [hone, hread]; rfl)]
      exact ⟨_, rfl⟩
    obtain ⟨next, hnext⟩ := (hwf.nextMem_isSome_iff hinside hone).mpr (hstop.resolve_left hone)
    have hwide : 1 < size := by
      by_contra hnarrow
      obtain rfl : size = 1 := by omega
      exact hone hinside
    rw [if_neg (by simp [hone]), if_pos (by simp [hone, hread, hwide]), hnext]
    exact ⟨_, rfl⟩

theorem Wf.readByte_eq (hwf : m.Wf) {key : Nat} (hget : m.memSlab.get key = some r)
    (hinside : r.inside x = true) :
    (m.readByte x).1 = if r.canRead then (m.byteAt x).map UInt8.toNat else none := by
  have hreaches : m.Reaches Mem64.canRead x 1 ↔ r.canRead = true := by
    constructor
    · rintro ⟨key', r', hget', hinside', hread, -⟩
      obtain ⟨-, rfl⟩ := hwf.eq_of_inside hget hget' hinside hinside'
      exact hread
    · exact fun hread => ⟨key, r, hget, hinside, hread, .inl hinside⟩
  unfold readByte
  rw [hwf.readScalar_fst]
  split
  · next hread =>
    obtain ⟨v, hv⟩ := (hwf.peek_isSome_iff (by decide)).mpr (hreaches.mpr hread)
    obtain ⟨b, hbyte⟩ := hwf.exists_byteAt hget hinside
    have hvalue := hwf.peek_eq_bytesAt (by decide) hv
    rw [hv, hvalue, hbyte, bytesAt]
    simp [hbyte, leValue]
  · next hread =>
    cases hv : m.peek 1 x with
    | none => rfl
    | some v => exact absurd (hreaches.mp ((hwf.peek_isSome_iff (by decide)).mp ⟨v, hv⟩)) hread

/-! ### Scalar writes -/

variable {bs : List UInt8}

theorem Wf.bulkWrite_eq (hwf : m.Wf) (hlen : 0 < bs.length) :
    ∃ out m', m.bulkWrite addr (addr + (bs.length - 1)) bs = some (out, m') ∧
      (out = .unmapped ↔ m.searchMaps addr = none) ∧
      (out = .done ↔ ∃ key r, m.memSlab.get key = some r ∧ r.inside addr = true ∧
        r.canWrite = true ∧ r.inside (addr + (bs.length - 1)) = true) := by
  obtain ⟨tlb, hlookup⟩ := hwf.getMemByAddrMut_eq addr
  unfold Maps.bulkWrite
  rw [hlookup]
  cases hfound : m.searchMaps addr with
  | none =>
    refine ⟨.unmapped, _, rfl, by simp, ?_⟩
    simp only [reduceCtorEq, false_iff]
    rintro ⟨key, r, hget, hinside, -⟩
    rw [hwf.searchMaps_eq_some.mpr ⟨hget, hinside⟩] at hfound
    cases hfound
  | some found =>
    obtain ⟨key, r⟩ := found
    obtain ⟨hget, hinside⟩ := hwf.searchMaps_eq_some.mp hfound
    dsimp only
    by_cases hcond : r.inside (addr + (bs.length - 1)) = true ∧ r.canWrite = true
    · have hspans : r.Spans addr bs.length := (hwf.covers hfound hlen hcond.1).spans
      obtain ⟨m₁, hstore⟩ := exists_storeBytes { m with tlb := tlb } key bs hcond.2 hspans.low
        hspans.fits
      rw [if_pos (by rw [hcond.1, hcond.2]; rfl), hstore]
      refine ⟨.done, _, rfl, by simp, ?_⟩
      simp only [true_iff]
      exact ⟨key, r, hget, hinside, hcond.2, hcond.1⟩
    · rw [if_neg (by rwa [Bool.and_eq_true])]
      refine ⟨.refused, _, rfl, by simp, ?_⟩
      simp only [reduceCtorEq, false_iff]
      rintro ⟨key', r', hget', hinside', hwrite, hstop⟩
      obtain ⟨-, rfl⟩ := hwf.eq_of_inside hget hget' hinside hinside'
      exact hcond ⟨hstop, hwrite⟩

theorem Wf.writeScalar_eq (hwf : m.Wf) (hsize : 0 < size) (value : Nat) :
    ∃ ok m', m.writeScalar size addr value = some (ok, m') ∧
      (ok = true ↔ m.Reaches Mem64.canWrite addr size) := by
  have hlen := length_leBytes size value
  simp only [Maps.writeScalar]
  by_cases hend : 2 ^ 64 ≤ addr + (size - 1)
  · rw [if_pos hend]
    refine ⟨false, m, rfl, ?_⟩
    simp only [Bool.false_eq_true, false_iff]
    intro hreaches
    have hlt := hwf.stop_lt hreaches
    omega
  rw [if_neg hend]
  -- the first lookup finds nothing to cross, or the two regions of a crossing
  obtain ⟨tlb, hlookup⟩ := hwf.lookup size addr
  have hwf₁ : Wf { m with tlb := tlb } := hwf.congr rfl rfl rfl
  rw [hlookup]
  dsimp only
  cases hcrossing : crossing { m with tlb := tlb } (if 1 < size then m.searchMaps addr else none)
      addr (addr + (size - 1)) size with
  | some crossed =>
    obtain ⟨mem, nextKey, next⟩ := crossed
    obtain ⟨key, hcross⟩ := hwf₁.crosses hcrossing
    obtain ⟨hget, hinside⟩ := hwf₁.searchMaps_eq_some.mp hcross.found
    have hlast : next.inside (addr + (size - 1)) = true := by
      have hspill := hcross.spill
      have hbase := hcross.next_base
      have hend := hcross.next_end
      exact inside_eq_true.mpr ⟨by omega, by omega⟩
    obtain ⟨m₁, m₂, -, -, -, hacross⟩ := hwf₁.writeAcross_eq (hlen.symm ▸ hcross)
    refine ⟨true, _, hacross, iff_of_true rfl ?_⟩
    exact ⟨key, mem, hget, hinside, hcross.writable,
      .inr ⟨nextKey, next, hcross.next_get, hcross.next_base, hlast, hcross.next_writable⟩⟩
  | none =>
    have hpos : 0 < (leBytes size value).length := by omega
    obtain ⟨out, m', hbulk, -, hdone⟩ := hwf₁.bulkWrite_eq hpos
    rw [hlen] at hbulk hdone
    dsimp only
    rw [hbulk]
    refine ⟨out == .done, m', rfl, ?_⟩
    rw [beq_iff_eq, hdone]
    constructor
    · rintro ⟨key, r, hget, hinside, hwrite, hstop⟩
      exact ⟨key, r, hget, hinside, hwrite, .inl hstop⟩
    rintro ⟨key, r, hget, hinside, hwrite, hstop⟩
    refine ⟨key, r, hget, hinside, hwrite, ?_⟩
    by_contra hone
    have hwide : 1 < size := by
      by_contra hnarrow
      obtain rfl : size = 1 := by omega
      exact hone hinside
    obtain ⟨next, hnext⟩ := (hwf.nextMem_isSome_iff hinside hone).mpr (hstop.resolve_left hone)
    rw [if_pos hwide, hwf.searchMaps_eq_some.mpr ⟨hget, hinside⟩] at hcrossing
    have hnext' :
        nextMem { m with tlb := tlb } r addr size Mem64.canWrite = some next := hnext
    simp [crossing, hone, hwrite, hnext'] at hcrossing

/-! ### Scalars and bytes -/

/-- A scalar read is possible if each of its bytes can be read, and it returns those bytes. -/
structure ReadsBytes (m : Maps) (size addr : Nat) : Prop where
  some_iff : (∃ v, (m.readScalar size addr).1 = some v) ↔ m.Allows Mem64.canRead addr size
  bytes : ∀ v, (m.readScalar size addr).1 = some v →
    ∃ bs : List UInt8, bs.length = size ∧ v = leValue bs ∧
      ∀ i < size, (m.readByte (addr + i)).1 = bs[i]?.map UInt8.toNat

/-- A scalar write is possible if each of its bytes can be written, and afterwards each byte is read
back and nothing else has changed. -/
structure WritesBytes (m : Maps) (size addr value : Nat) : Prop where
  returns : ∃ ok m', m.writeScalar size addr value = some (ok, m') ∧
    (ok = true ↔ m.Allows Mem64.canWrite addr size)
  bytes : ∀ m', m.writeScalar size addr value = some (true, m') → ∀ i < size,
    (m'.readByte (addr + i)).1 = (leBytes size value)[i]?.map UInt8.toNat
  frame : ∀ m', m.writeScalar size addr value = some (true, m') →
    ∀ x, ¬ (addr ≤ x ∧ x < addr + size) → m'.viewAt x = m.viewAt x

theorem Wf.readsBytes_iff (hwf : m.Wf) (hsize : 0 < size) (addr : Nat) : ReadsBytes m size addr ↔
      (m.Allows Mem64.canRead addr size → m.InTwoRegions addr size) := by
  have hreads : (∃ v, (m.readScalar size addr).1 = some v) ↔
      m.Allows Mem64.canRead addr size ∧ m.InTwoRegions addr size := by
    rw [hwf.readScalar_fst, hwf.peek_isSome_iff hsize, hwf.reaches_iff hsize]
  constructor
  · intro hbytes hallows
    exact (hreads.mp (hbytes.some_iff.mpr hallows)).2
  intro htwo
  refine ⟨hreads.trans ⟨And.left, fun hallows => ⟨hallows, htwo hallows⟩⟩, fun v hv => ?_⟩
  obtain ⟨hallows, -⟩ := hreads.mp ⟨v, hv⟩
  rw [hwf.readScalar_fst] at hv
  refine ⟨m.bytesAt addr size, m.length_bytesAt addr size, hwf.peek_eq_bytesAt hsize hv,
    fun i hi => ?_⟩
  obtain ⟨key, r, hget, hinside, hread⟩ := hallows (addr + i) (by omega) (by omega)
  obtain ⟨b, hbyte⟩ := hwf.exists_byteAt hget hinside
  rw [hwf.readByte_eq hget hinside, if_pos hread, hbyte, bytesAt, List.getElem?_map,
    List.getElem?_range hi]
  simp only [map_some, hbyte, getD_some]

theorem Stores.viewAt (hstores : Stores m m' addr bs) (hout : ¬ (addr ≤ x ∧ x < addr + bs.length)) :
    m'.viewAt x = m.viewAt x := by
  rw [viewAt_eq, viewAt_eq, hstores.bytes, if_neg hout]
  cases hfound : m.searchMaps x with
  | none =>
    have hbyte : m.byteAt x = none := by rw [byteAt, hfound, bind_none]
    rw [hbyte, bind_none, bind_none]
  | some found =>
    obtain ⟨key, r⟩ := found
    obtain ⟨r', hfound', hframe⟩ := hstores.searchMaps hfound
    have hpermission : r'.permission = r.permission := by
      simp only [Mem64.frame, Prod.mk.injEq] at hframe
      exact hframe.2.2
    simp only [hfound', map_some, hpermission]

theorem Wf.writesBytes_iff (hwf : m.Wf) (hsize : 0 < size) (addr value : Nat) :
    WritesBytes m size addr value ↔ (m.Allows Mem64.canWrite addr size →
      m.InTwoRegions addr size ∧ m.Allows Mem64.canRead addr size) := by
  have hlen := length_leBytes size value
  obtain ⟨ok, m', hwrite, hok⟩ : ∃ ok m', m.writeScalar size addr value = some (ok, m') ∧
      (ok = true ↔ m.Reaches Mem64.canWrite addr size) := hwf.writeScalar_eq hsize value
  rw [hwf.reaches_iff hsize] at hok
  have hstores := hwf.writeScalar_stores hsize hwrite
  constructor
  · intro hbytes hallows
    have hdone : ok = true := by
      obtain ⟨ok', m'', hwrite', hok'⟩ := hbytes.returns
      rw [hwrite] at hwrite'
      cases hwrite'
      exact hok'.mpr hallows
    subst hdone
    refine ⟨(hok.mp rfl).2, fun x hlow hhigh => ?_⟩
    have hread := hbytes.bytes m' hwrite (x - addr) (by omega)
    rw [Nat.add_sub_cancel' hlow, List.getElem?_eq_getElem (by omega), map_some] at hread
    obtain ⟨key, r, hget, hinside, -⟩ := hallows x hlow hhigh
    obtain ⟨r', hget', hframe⟩ := hstores.get hget
    have hinside' : r'.inside x = true := (Mem64.inside_of_frame hframe x).trans hinside
    rw [hstores.wf.readByte_eq hget' hinside', ite_none_right_eq_some] at hread
    exact ⟨key, r, hget, hinside, (Mem64.canRead_of_frame hframe).symm.trans hread.1⟩
  · intro hcond
    refine ⟨⟨ok, m', hwrite, hok.trans ⟨And.left, fun hallows => ⟨hallows, (hcond hallows).1⟩⟩⟩,
      fun m₁ hwrite₁ i hi => ?_, fun m₁ hwrite₁ x hout => ?_⟩
    · rw [hwrite] at hwrite₁
      cases hwrite₁
      rw [if_pos rfl] at hstores
      obtain ⟨key, r, hget, hinside, hread⟩ :=
        (hcond (hok.mp rfl).1).2 (addr + i) (by omega) (by omega)
      obtain ⟨r', hget', hframe⟩ := hstores.get hget
      have hinside' : r'.inside (addr + i) = true := (Mem64.inside_of_frame hframe _).trans hinside
      rw [hstores.wf.readByte_eq hget' hinside',
        if_pos ((Mem64.canRead_of_frame hframe).trans hread), hstores.bytes,
        if_pos ⟨by omega, by omega⟩, Nat.add_sub_cancel_left]
    · rw [hwrite] at hwrite₁
      cases hwrite₁
      rw [if_pos rfl] at hstores
      exact hstores.viewAt (by omega)

/-- A scalar access is the access to each of its bytes exactly if a range that could be read, or
written, lies in one region or in two adjacent ones, and one that could be written can be read. -/
theorem scalar_access_bytewise_iff (m : Maps) (hwf : m.Wf) (size : Nat)
    (hsize : size ∈ [1, 2, 4, 8, 16]) (addr value : Nat) :
    (ReadsBytes m size addr ∧ WritesBytes m size addr value) ↔
      (m.Allows Mem64.canRead addr size → m.InTwoRegions addr size) ∧
      (m.Allows Mem64.canWrite addr size →
        m.InTwoRegions addr size ∧ m.Allows Mem64.canRead addr size) := by
  have hpos : 0 < size := by
    simp only [mem_cons, not_mem_nil, or_false] at hsize
    omega
  exact and_congr (hwf.readsBytes_iff hpos addr) (hwf.writesBytes_iff hpos addr value)

def threeInARow : List Op :=
  [.createMap "a" 16 1 readWrite, .createMap "b" 17 1 readWrite, .createMap "c" 18 2 readWrite]

theorem threeInARow_admitted :
    Along Op.step (fun m op => op.InRange m ∧ op.Admitted m) default threeInARow := by
  decide +kernel

theorem scalar_access_bytewise_iff_threeInARow : ∃ m, run Op.step default threeInARow = some m ∧
      ((ReadsBytes m 2 16 ∧ WritesBytes m 2 16 0xabcd) ↔
        (m.Allows Mem64.canRead 16 2 → m.InTwoRegions 16 2) ∧ (m.Allows Mem64.canWrite 16 2 →
          m.InTwoRegions 16 2 ∧ m.Allows Mem64.canRead 16 2)) := by
  have hsome : (run Op.step default threeInARow).isSome = true := by decide +kernel
  obtain ⟨m, hrun⟩ := isSome_iff_exists.mp hsome
  exact ⟨m, hrun, scalar_access_bytewise_iff m (wf_of_run threeInARow_admitted hrun) 2 (by decide)
    16 0xabcd⟩

/-- Each of the four bytes is read and written, but the four together are neither. -/
theorem dword_over_three_regions : ∃ m, run Op.step default threeInARow = some m ∧ m.Wf ∧
      (∀ i < 4, (m.readByte (16 + i)).1 = some 0 ∧
        (m.writeByte (16 + i) 7).map Prod.fst = some true) ∧
      (m.readScalar 4 16).1 = none ∧ (m.writeScalar 4 16 7).map Prod.fst = some false := by
  have hcalls : (run Op.step default threeInARow).map (fun m =>
      (List.range 4).all (fun i => decide ((m.readByte (16 + i)).1 = some 0 ∧
        (m.writeByte (16 + i) 7).map Prod.fst = some true)) &&
      decide ((m.readScalar 4 16).1 = none ∧
        (m.writeScalar 4 16 7).map Prod.fst = some false)) = some true := by
    decide +kernel
  obtain ⟨m, hrun, hcalls⟩ := map_eq_some_iff.mp hcalls
  rw [Bool.and_eq_true, List.all_eq_true, decide_eq_true_eq] at hcalls
  refine ⟨m, hrun, wf_of_run threeInARow_admitted hrun, fun i hi => ?_, hcalls.2⟩
  exact of_decide_eq_true (hcalls.1 i (mem_range.mpr hi))

end Maps

end Mwemu
