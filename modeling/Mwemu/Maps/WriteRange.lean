import Mwemu.Maps.Access

/-!
# Writes to ranges

`validate_write_range` walks over the regions of a range, `write_bytes` over its bytes. They agree
on which ranges can be written. What `write_bytes` has written before the first byte that it cannot
write stays written, though, so a failed write need not leave memory as it was.
-/

namespace Mwemu

open Mwemu.Lib List Option Mem64 Nat

namespace Maps

variable {m m' : Maps} {addr : Nat} {data : List UInt8}

/-! ### The check of a range -/

def validateFrom (m : Maps) (stop cursor : Nat) : Bool :=
  if cursor < stop then
    match m.maps.floor cursor with
    | none => false
    | some (mapBase, key) =>
      match m.memSlab.get key with
      | none => false
      | some map =>
        if !map.canWrite then false
        else if cursor < mapBase ∨ map.bottomAddr ≤ cursor then false
        else m.validateFrom stop (if map.bottomAddr ≤ stop then map.bottomAddr else stop)
  else true
termination_by stop - cursor
decreasing_by split <;> omega

def validateWriteRange (m : Maps) (addr len : Nat) : Bool :=
  if len = 0 then true
  else if addr = 0 then false
  else if 2 ^ 64 ≤ addr + len then false
  else m.validateFrom (addr + len) addr

variable {allowed : Mem64 → Bool} {len : Nat}

theorem Wf.floor_of_allows (hwf : m.Wf) (hallows : m.Allows allowed addr len) (hlen : 0 < len) :
    ∃ key r, m.maps.floor addr = some (r.baseAddr, key) ∧ m.memSlab.get key = some r ∧
      r.inside addr = true ∧ allowed r = true := by
  obtain ⟨key, r, hget, hinside, hallowed⟩ := hallows addr (le_refl _) (by omega)
  exact ⟨key, r, hwf.floor_of_search (hwf.searchMaps_eq_some.mpr ⟨hget, hinside⟩), hget, hinside,
    hallowed⟩

variable {key : Nat} {r : Mem64}

theorem allows_behind_iff {stop : Nat} (hget : m.memSlab.get key = some r)
    (hinside : r.inside addr = true) (hallowed : allowed r = true) :
    m.Allows allowed addr (stop - addr) ↔
      m.Allows allowed (min r.bottomAddr stop) (stop - min r.bottomAddr stop) := by
  rw [inside_eq_true] at hinside
  constructor
  · intro hallows x hlow hhigh
    exact hallows x (by omega) (by omega)
  · intro hallows x hlow hhigh
    by_cases hx : x < r.bottomAddr
    · exact ⟨key, r, hget, inside_eq_true.mpr ⟨by omega, hx⟩, hallowed⟩
    · exact hallows x (by omega) (by omega)

theorem Wf.validateFrom_iff (hwf : m.Wf) (stop cursor : Nat) :
    m.validateFrom stop cursor = true ↔ m.Allows Mem64.canWrite cursor (stop - cursor) := by
  fun_induction validateFrom m stop cursor with
  | case1 cursor hcursor hfloor =>
    simp only [Bool.false_eq_true, false_iff]
    intro hallows
    obtain ⟨key, r, hfloor', -⟩ := hwf.floor_of_allows hallows (by omega)
    cases hfloor.symm.trans hfloor'
  | case2 cursor hcursor base key hfloor hget =>
    simp only [Bool.false_eq_true, false_iff]
    intro hallows
    obtain ⟨key', r, hfloor', hget', -⟩ := hwf.floor_of_allows hallows (by omega)
    cases hfloor.symm.trans hfloor'
    cases hget.symm.trans hget'
  | case3 cursor hcursor base key hfloor r hget hwrite =>
    simp only [Bool.false_eq_true, false_iff]
    intro hallows
    obtain ⟨key', r', hfloor', hget', -, hwrite'⟩ := hwf.floor_of_allows hallows (by omega)
    cases hfloor.symm.trans hfloor'
    cases hget.symm.trans hget'
    rw [hwrite'] at hwrite
    cases hwrite
  | case4 cursor hcursor base key hfloor r hget hwrite hout =>
    simp only [Bool.false_eq_true, false_iff]
    intro hallows
    obtain ⟨key', r', hfloor', hget', hinside, -⟩ := hwf.floor_of_allows hallows (by omega)
    cases hfloor.symm.trans hfloor'
    cases hget.symm.trans hget'
    rw [inside_eq_true] at hinside
    omega
  | case5 cursor hcursor base key hfloor r hget hwrite hout ih =>
    obtain ⟨r', hget', hbase⟩ := (hwf.based _ _).mp (OrdMap.floor_eq_some.mp hfloor).1
    cases hget.symm.trans hget'
    rw [Bool.not_eq_true', Bool.not_eq_false] at hwrite
    have hinside : r.inside cursor = true := inside_eq_true.mpr (by omega)
    rw [allows_behind_iff hget hinside hwrite, min_def]
    exact ih
  | case6 cursor hcursor =>
    simp only [true_iff]
    intro x hlow hhigh
    omega

theorem Wf.lt_of_allows (hwf : m.Wf) (hallows : m.Allows allowed addr len) (hlen : 0 < len) :
    addr + len < 2 ^ 64 := by
  obtain ⟨key, r, hget, hinside, -⟩ := hallows (addr + (len - 1)) (by omega) (by omega)
  have hbounded := hwf.bounded key r hget
  have hmax : u64Max = 2 ^ 64 - 1 := rfl
  rw [inside_eq_true] at hinside
  omega

theorem Wf.validateWriteRange_iff (hwf : m.Wf) (haddr : addr ≠ 0) (hlen : 0 < len) :
    m.validateWriteRange addr len = true ↔ m.Allows Mem64.canWrite addr len := by
  unfold validateWriteRange
  rw [if_neg (by omega), if_neg haddr]
  by_cases hend : 2 ^ 64 ≤ addr + len
  · rw [if_pos hend]
    simp only [Bool.false_eq_true, false_iff]
    exact fun hallows => absurd (hwf.lt_of_allows hallows hlen) (by omega)
  · rw [if_neg hend, hwf.validateFrom_iff, Nat.add_sub_cancel_left]

/-! ### The bytes written -/

variable {a : Nat} {r' : Mem64}

theorem Mem64.canWrite_of_frame (hframe : r'.frame = r.frame) : r'.canWrite = r.canWrite := by
  simp only [Mem64.frame, Prod.mk.injEq] at hframe
  rw [Mem64.canWrite, Mem64.canWrite, hframe.2.2]

theorem Allows.mono {k : Nat} (hallows : m.Allows allowed addr len) (hk : k ≤ len) :
    m.Allows allowed addr k :=
  fun x hlow hhigh => hallows x hlow (by omega)

theorem allows_add {n k : Nat} : m.Allows allowed addr (n + k) ↔
    m.Allows allowed addr n ∧ m.Allows allowed (addr + n) k := by
  constructor
  · intro hallows
    exact ⟨fun x hlow hhigh => hallows x hlow (by omega),
      fun x hlow hhigh => hallows x (by omega) (by omega)⟩
  · rintro ⟨hfirst, hsecond⟩ x hlow hhigh
    by_cases hx : x < addr + n
    · exact hfirst x hlow hx
    · exact hsecond x (by omega) (by omega)

theorem leBytes_one (b : UInt8) : leBytes 1 b.toNat = [b] := by
  have hvalue : leValue [b] = b.toNat := by simp [leValue]
  rw [← hvalue]
  exact leBytes_leValue [b]

theorem Wf.reaches_one (hwf : m.Wf) : m.Reaches allowed addr 1 ↔ m.Allows allowed addr 1 := by
  rw [hwf.reaches_iff one_pos]
  refine and_iff_left_of_imp fun hallows => ?_
  obtain ⟨key, r, hget, hinside, -⟩ := hallows addr (le_refl _) (lt_succ_self _)
  exact ⟨key, r, hget, hinside, rfl, .inl hinside⟩

variable {size : Nat}

section

variable (hallowed : ∀ r r' : Mem64, r'.frame = r.frame → allowed r' = allowed r)
  (hframes : ∀ key, (m'.memSlab.get key).map Mem64.frame = (m.memSlab.get key).map Mem64.frame)
include hallowed hframes

theorem Allows.of_frames (hallows : m.Allows allowed addr len) : m'.Allows allowed addr len := by
  intro x hlow hhigh
  obtain ⟨key, r, hget, hinside, hr⟩ := hallows x hlow hhigh
  obtain ⟨r', hget', hframe⟩ := get_of_frame hget (hframes key)
  exact ⟨key, r', hget', (inside_of_frame hframe x).trans hinside,
    (hallowed r r' hframe).trans hr⟩

theorem Reaches.of_frames (hreaches : m.Reaches allowed addr size) :
    m'.Reaches allowed addr size := by
  obtain ⟨key, r, hget, hinside, hr, hlast⟩ := hreaches
  obtain ⟨r', hget', hframe⟩ := get_of_frame hget (hframes key)
  refine ⟨key, r', hget', (inside_of_frame hframe _).trans hinside,
    (hallowed r r' hframe).trans hr, ?_⟩
  rcases hlast with hlast | ⟨nextKey, next, hnext, hbase, hlast, hallows⟩
  · exact .inl ((inside_of_frame hframe _).trans hlast)
  obtain ⟨next', hnext', hnextFrame⟩ := get_of_frame hnext (hframes nextKey)
  have hbase' : next'.baseAddr = next.baseAddr := (Prod.mk.inj hnextFrame).1
  refine .inr ⟨nextKey, next', hnext', ?_, (inside_of_frame hnextFrame _).trans hlast,
    (hallowed next next' hnextFrame).trans hallows⟩
  rw [hbase', hbase, bottomAddr_of_frame hframe]

end

/-- The regions are the same, and so are the bytes outside the range. -/
structure Touches (m m' : Maps) (addr n : Nat) : Prop where
  wf : m'.Wf
  index : m'.maps = m.maps
  frame : ∀ key, (m'.memSlab.get key).map Mem64.frame = (m.memSlab.get key).map Mem64.frame
  bytes : ∀ x, ¬(addr ≤ x ∧ x < addr + n) → m'.byteAt x = m.byteAt x

section Touches

variable {allowed : Mem64 → Bool} {n k : Nat} {bs : List UInt8}

theorem Stores.touches (hstores : Stores m m' addr bs) (hlen : bs.length ≤ n) :
    Touches m m' addr n := by
  refine ⟨hstores.wf, hstores.index, hstores.frame, fun x hout => ?_⟩
  rw [hstores.bytes, if_neg (by omega)]

theorem Touches.append {m'' : Maps} (h₁ : Touches m m' addr n)
    (h₂ : Touches m' m'' (addr + n) k) : Touches m m'' addr (n + k) := by
  refine ⟨h₂.wf, h₂.index.trans h₁.index, fun key => (h₂.frame key).trans (h₁.frame key),
    fun x hout => ?_⟩
  rw [h₂.bytes x (by omega), h₁.bytes x (by omega)]

section

variable (htouches : Touches m m' addr n)
include htouches

theorem Touches.reaches_iff
    (hallowed : ∀ r r' : Mem64, r'.frame = r.frame → allowed r' = allowed r) (a size : Nat) :
    m'.Reaches allowed a size ↔ m.Reaches allowed a size := by
  constructor
  · exact Reaches.of_frames hallowed fun key => (htouches.frame key).symm
  · exact Reaches.of_frames hallowed htouches.frame

theorem Touches.allows_canWrite (a size : Nat) :
    m'.Allows Mem64.canWrite a size ↔ m.Allows Mem64.canWrite a size := by
  have hallowed (r r' : Mem64) : r'.frame = r.frame → _ := Mem64.canWrite_of_frame
  constructor
  · exact Allows.of_frames hallowed fun key => (htouches.frame key).symm
  · exact Allows.of_frames hallowed htouches.frame

theorem Touches.bytesAt_eq
    (hapart : a + size ≤ addr ∨ addr + n ≤ a) : m'.bytesAt a size = m.bytesAt a size :=
  bytesAt_congr fun i hi => htouches.bytes (a + i) (by omega)

end

theorem Stores.allows_canWrite (hstores : Stores m m' a bs) (addr len : Nat) :
    m'.Allows Mem64.canWrite addr len ↔ m.Allows Mem64.canWrite addr len :=
  (hstores.touches (le_refl _)).allows_canWrite addr len

theorem Touches.stores_iff (hallows : m.Allows allowed addr bs.length)
    (htouches : Touches m m' addr bs.length) :
    Stores m m' addr bs ↔ m'.bytesAt addr bs.length = bs := by
  refine ⟨Stores.bytesAt_eq,
    fun hbytes => ⟨htouches.wf, htouches.index, htouches.frame, fun x => ?_⟩⟩
  split
  next hin =>
    obtain ⟨key, r, hget, hinside, -⟩ := hallows x hin.1 hin.2
    obtain ⟨r', hget', hframe⟩ := get_of_frame hget (htouches.frame key)
    obtain ⟨b, hbyte⟩ := htouches.wf.exists_byteAt hget'
      ((inside_of_frame hframe x).trans hinside)
    have hat : (m'.bytesAt addr bs.length)[x - addr]? = some b := by
      rw [bytesAt, List.getElem?_map, List.getElem?_range (by omega), map_some,
        Nat.add_sub_cancel' hin.1, hbyte, getD_some]
    rw [hbyte, ← hat, hbytes]
  next hout => exact htouches.bytes x hout

/-- A scalar write to a range that may be written leaves the bytes of the value there, unless the
range lies in more than two regions. -/
theorem Wf.writeScalar_touches (hwf : m.Wf) (hsize : 0 < n) (addr value : Nat) :
    ∃ ok m', m.writeScalar n addr value = some (ok, m') ∧ Touches m m' addr n ∧
      (m.Allows Mem64.canWrite addr n → (m'.bytesAt addr n = leBytes n value ↔
        m.InTwoRegions addr n ∨ m.bytesAt addr n = leBytes n value)) := by
  obtain ⟨ok, m', hwrite, hok⟩ : ∃ ok m', m.writeScalar n addr value = some (ok, m') ∧
      (ok = true ↔ m.Reaches Mem64.canWrite addr n) := hwf.writeScalar_eq hsize value
  have hstores := hwf.writeScalar_stores hsize hwrite
  have hlen := length_leBytes n value
  rw [hwf.reaches_iff hsize] at hok
  cases ok with
  | true =>
    refine ⟨true, m', hwrite, hstores.touches hlen.le, fun _ => ?_⟩
    have hbytes := hstores.bytesAt_eq
    rw [if_pos rfl, hlen] at hbytes
    exact iff_of_true hbytes (.inl (hok.mp rfl).2)
  | false =>
    refine ⟨false, m', hwrite, hstores.touches (zero_le n), fun hallows => ?_⟩
    have hnot : ¬m.InTwoRegions addr n := fun htwo => by cases hok.mpr ⟨hallows, htwo⟩
    have hsame : m'.bytesAt addr n = m.bytesAt addr n :=
      (hstores.touches (le_refl 0)).bytesAt_eq (.inr (le_refl addr))
    rw [hsame, or_iff_right hnot]

end Touches

/-- What a write by bytes has written: the leading bytes, up to the first that it cannot write. -/
structure WritesLeading (m m' : Maps) (addr : Nat) (data : List UInt8) (ok : Bool) (n : Nat) :
    Prop where
  stores : Stores m m' addr (data.take n)
  le : n ≤ data.length
  allows : m.Allows Mem64.canWrite addr n
  done : ok = true → n = data.length
  failed : ok = false → n < data.length ∧ ¬ m.Allows Mem64.canWrite addr (n + 1)

theorem Wf.writeEach_leading (hwf : m.Wf) (addr : Nat) (data : List UInt8) :
    ∃ ok m' n, m.writeEach (data.mapIdx fun i b => (addr + i, b)) = some (ok, m') ∧
      WritesLeading m m' addr data ok n := by
  induction data generalizing m addr with
  | nil =>
    refine ⟨true, m, 0, rfl, hwf.stores_of_eq m rfl rfl rfl addr, le_refl _, ?_,
      fun _ => rfl, by simp⟩
    intro x hlow hhigh
    omega
  | cons b data ih =>
    obtain ⟨ok₁, m₁, hbyte, hok₁⟩ : ∃ ok m', m.writeScalar 1 addr b.toNat = some (ok, m') ∧
        (ok = true ↔ m.Reaches Mem64.canWrite addr 1) := hwf.writeScalar_eq one_pos b.toNat
    have hstores₁ := hwf.writeScalar_stores one_pos hbyte
    rw [leBytes_one] at hstores₁
    rw [hwf.reaches_one] at hok₁
    have hshift : (fun i b => (addr + (i + 1), b)) =
        fun (i : Nat) (b : UInt8) => (addr + 1 + i, b) := by
      funext i b
      rw [Nat.add_right_comm, Nat.add_assoc]
    rw [mapIdx_cons, Maps.writeEach, Nat.add_zero, writeByte, hbyte, bind_some, hshift]
    cases ok₁ with
    | false =>
      refine ⟨false, m₁, 0, rfl, hstores₁, zero_le _, ?_, by simp, fun _ => ⟨succ_pos _, ?_⟩⟩
      · intro x hlow hhigh
        omega
      · intro hallows
        cases hok₁.mpr hallows
    | true =>
      obtain ⟨ok, m', n, hwrite, hleading⟩ := ih hstores₁.wf (addr + 1)
      have hhead := hok₁.mp rfl
      refine ⟨ok, m', n + 1, hwrite, ?_, succ_le_succ hleading.le, ?_, fun hok => ?_,
        fun hok => ⟨succ_lt_succ (hleading.failed hok).1, fun hallows => ?_⟩⟩
      · exact hstores₁.append hleading.stores rfl
      · rw [Nat.add_comm, allows_add]
        exact ⟨hhead, (hstores₁.allows_canWrite _ _).mp hleading.allows⟩
      · rw [hleading.done hok, length_cons]
      · rw [Nat.add_comm, allows_add] at hallows
        exact (hleading.failed hok).2 ((hstores₁.allows_canWrite _ _).mpr hallows.2)

theorem Wf.writeBytes_leading (hwf : m.Wf) (hdata : data ≠ [])
    (hend : addr + (data.length - 1) < 2 ^ 64) :
    ∃ ok m' n, m.writeBytes addr data = some (ok, m') ∧ WritesLeading m m' addr data ok n := by
  have hlen : 0 < data.length := length_pos_iff.mpr hdata
  obtain ⟨out, m₁, hbulk, hunmapped, hdone⟩ := hwf.bulkWrite_eq hlen
  have hstores := hwf.bulkWrite_stores (by omega) hbulk
  rw [Maps.writeBytes, if_neg hdata, if_neg (by omega), hbulk, bind_some]
  cases out with
  | done =>
    refine ⟨true, m₁, data.length, rfl, ?_, le_refl _, ?_, fun _ => rfl, by simp⟩
    · rw [take_length]
      exact hstores
    · obtain ⟨key, r, hget, hinside, hwrite, hstop⟩ := hdone.mp rfl
      rw [inside_eq_true] at hinside hstop
      exact fun x hlow hhigh =>
        ⟨key, r, hget, inside_eq_true.mpr ⟨by omega, by omega⟩, hwrite⟩
  | unmapped =>
    refine ⟨false, m₁, 0, rfl, hstores, zero_le _, ?_, by simp, fun _ => ⟨hlen, ?_⟩⟩
    · intro x hlow hhigh
      omega
    · intro hallows
      obtain ⟨key, r, hget, hinside, -⟩ := hallows addr (le_refl _) (by omega)
      rw [hwf.searchMaps_eq_some.mpr ⟨hget, hinside⟩] at hunmapped
      cases hunmapped.mp rfl
  | refused =>
    obtain ⟨ok, m', n, hwrite, hleading⟩ := hstores.wf.writeEach_leading addr data
    exact ⟨ok, m', n, hwrite, hstores.after hleading.stores, hleading.le,
      (hstores.allows_canWrite _ _).mp hleading.allows, hleading.done, fun hok =>
        ⟨(hleading.failed hok).1, fun hallows =>
          (hleading.failed hok).2 ((hstores.allows_canWrite _ _).mpr hallows)⟩⟩

/-! ### All or nothing -/

/-- A write is carried out if the check accepts its range, and changes nothing otherwise. -/
structure AllOrNothing (m : Maps) (addr : Nat) (data : List UInt8) : Prop where
  returns : ∃ ok m', m.writeBytes addr data = some (ok, m') ∧
    (ok = true ↔ m.validateWriteRange addr data.length = true)
  done : ∀ m', m.writeBytes addr data = some (true, m') → ∀ x,
    m'.byteAt x = if addr ≤ x ∧ x < addr + data.length then data[x - addr]? else m.byteAt x
  failed : ∀ m', m.writeBytes addr data = some (false, m') → ∀ x, m'.byteAt x = m.byteAt x

/-- If some byte of the range cannot be written, the writable bytes in front of the first such
already have the values of `data`. -/
def HasLeading (m : Maps) (addr : Nat) (data : List UInt8) : Prop :=
  ¬ m.Allows Mem64.canWrite addr data.length → addr + (data.length - 1) < 2 ^ 64 →
    ∀ k < data.length, m.Allows Mem64.canWrite addr (k + 1) → m.byteAt (addr + k) = data[k]?

theorem writeBytes_allOrNothing_iff (m : Maps) (hwf : m.Wf) (addr : Nat) (haddr : addr ≠ 0)
    (data : List UInt8) (hdata : data ≠ []) :
    AllOrNothing m addr data ↔ m.HasLeading addr data := by
  have hlen : 0 < data.length := length_pos_iff.mpr hdata
  have hvalid := hwf.validateWriteRange_iff haddr hlen
  by_cases hend : addr + (data.length - 1) < 2 ^ 64
  · obtain ⟨ok, m', n, hwrite, hleading⟩ := hwf.writeBytes_leading hdata hend
    have hok : ok = true ↔ m.Allows Mem64.canWrite addr data.length := by
      constructor
      · intro hok
        exact hleading.done hok ▸ hleading.allows
      · intro hallows
        by_contra hnot
        obtain ⟨hn, hstop⟩ := hleading.failed (Bool.not_eq_true _ ▸ hnot)
        exact hstop (hallows.mono hn)
    constructor
    · intro hall hnot _ k hk hallows
      have hfalse : ok = false := Bool.eq_false_iff.mpr (mt hok.mp hnot)
      subst hfalse
      have hkn : k < n := by
        by_contra hle
        exact (hleading.failed rfl).2 (hallows.mono (by omega))
      have hbyte := hleading.stores.bytes (addr + k)
      rw [length_take, if_pos (by omega), Nat.add_sub_cancel_left, List.getElem?_take,
        if_pos hkn] at hbyte
      rw [← hbyte, hall.failed m' hwrite]
    · intro hhas
      refine ⟨⟨ok, m', hwrite, hok.trans hvalid.symm⟩, fun m₁ hwrite₁ x => ?_,
        fun m₁ hwrite₁ x => ?_⟩
      · cases hwrite.symm.trans hwrite₁
        have hstores := hleading.stores
        rw [hleading.done rfl, take_length] at hstores
        exact hstores.bytes x
      cases hwrite.symm.trans hwrite₁
      rw [hleading.stores.bytes, length_take]
      split
      · next hx =>
        have hn := hleading.le
        have hleft := hhas (mt hok.mpr Bool.false_ne_true) hend (x - addr) (by omega)
          (hleading.allows.mono (by omega))
        rw [Nat.add_sub_cancel' hx.1] at hleft
        rw [hleft, List.getElem?_take, if_pos (by omega)]
      · rfl
  · have hnot : ¬ m.Allows Mem64.canWrite addr data.length :=
      fun hallows => absurd (hwf.lt_of_allows hallows hlen) (by omega)
    have hwrite : m.writeBytes addr data = some (false, m) := by
      rw [Maps.writeBytes, if_neg hdata, if_pos (by omega)]
    constructor
    · exact fun _ _ hlt => absurd hlt hend
    intro _
    refine ⟨⟨false, m, hwrite, ?_⟩, fun m₁ hwrite₁ => ?_, fun m₁ hwrite₁ x => ?_⟩
    · rw [hvalid]
      exact iff_of_false Bool.false_ne_true hnot
    · cases hwrite.symm.trans hwrite₁
    · cases hwrite.symm.trans hwrite₁
      rfl

/-- Two bytes, one more, and a hole behind it. -/
def upToHole : List Op :=
  [.createMap "a" 16 2 readWrite, .createMap "b" 18 1 readWrite]

theorem upToHole_admitted :
    Along Op.step (fun m op => op.InRange m ∧ op.Admitted m) default upToHole := by
  decide +kernel

/-- A write over both regions into the hole, of the zeros they hold, fails and changes nothing. -/
theorem writeBytes_allOrNothing_iff_upToHole : ∃ m, run Op.step default upToHole = some m ∧
      m.byteAt 19 = none ∧ AllOrNothing m 16 [0, 0, 0, 9] := by
  have hreached : (run Op.step default upToHole).any (fun m =>
      (∀ k < 3, m.byteAt (16 + k) = some 0) ∧ m.byteAt 19 = none) = true := by
    decide +kernel
  obtain ⟨m, hrun, hbytes⟩ := (any_eq_true _ _).mp hreached
  obtain ⟨hzeros, hhole⟩ := of_decide_eq_true hbytes
  refine ⟨m, hrun, hhole, (writeBytes_allOrNothing_iff m (wf_of_run upToHole_admitted hrun) 16
    (by decide) [0, 0, 0, 9] (by decide)).mpr fun hnot _ k hk hallows => ?_⟩
  match k, hk with
  | 0, _ | 1, _ | 2, _ => exact hzeros _ (by decide)
  | 3, _ => exact absurd hallows hnot

/-- The write of four other bytes fails as well and leaves the first three of them there. -/
theorem failed_write_leaves_bytes : ∃ m m', run Op.step default upToHole = some m ∧ m.Wf ∧
      m.writeBytes 16 [7, 8, 9, 10] = some (false, m') ∧ m.byteAt 18 = some 0 ∧
        m'.byteAt 18 = some 9 := by
  have hcalls : ((run Op.step default upToHole).bind fun m =>
      (m.writeBytes 16 [7, 8, 9, 10]).map fun out => (m.byteAt 18, out.1, out.2.byteAt 18)) =
      some (some 0, false, some 9) := by
    decide +kernel
  obtain ⟨m, hrun, hcalls⟩ := bind_eq_some_iff.mp hcalls
  obtain ⟨⟨ok, m'⟩, hwrite, hbytes⟩ := map_eq_some_iff.mp hcalls
  simp only [Prod.mk.injEq] at hbytes
  obtain ⟨hbefore, rfl, hafter⟩ := hbytes
  exact ⟨m, m', hrun, wf_of_run upToHole_admitted hrun, hwrite, hbefore, hafter⟩

end Maps

end Mwemu
