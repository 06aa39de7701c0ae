import Mwemu.Maps.Region

/-!
# Accesses byte by byte

What a scalar access does in terms of the bytes of a well-formed store, whether it stays in one
region or runs into the next: a read returns the bytes at its addresses, and a write replaces them
or nothing. `Stores` is that effect of a write; it says nothing of the lookup buffer and the log.
-/

namespace Mwemu

open Mwemu.Lib List Option Mem64

theorem leValue_leBytes (size value : Nat) : leValue (leBytes size value) = value % 256 ^ size := by
  induction size generalizing value with
  | zero => rw [Nat.pow_zero, Nat.mod_one]; rfl
  | succ size ih =>
    have hlow : (UInt8.ofNat value).toNat = value % 256 := UInt8.toNat_ofNat'
    rw [leBytes_succ, leValue_cons, ih, hlow, Nat.pow_succ', Nat.mod_mul]

def Mem64.frame (r : Mem64) : Nat × Nat × Permission :=
  (r.baseAddr, r.bottomAddr, r.permission)

variable {r r' : Mem64}

theorem Mem64.inside_of_frame (hframe : r'.frame = r.frame) (x : Nat) :
    r'.inside x = r.inside x := by
  simp only [Mem64.frame, Prod.mk.injEq] at hframe
  rw [Mem64.inside, Mem64.inside, hframe.1, hframe.2.1]

theorem Mem64.canRead_of_frame (hframe : r'.frame = r.frame) : r'.canRead = r.canRead := by
  simp only [Mem64.frame, Prod.mk.injEq] at hframe
  rw [Mem64.canRead, Mem64.canRead, hframe.2.2]

theorem Mem64.bottomAddr_of_frame (hframe : r'.frame = r.frame) : r'.bottomAddr = r.bottomAddr := by
  simp only [Mem64.frame, Prod.mk.injEq] at hframe
  exact hframe.2.1

variable {x : Nat}

theorem Mem64.Spans.byteAt_overwrite {addr : Nat} {bs : List UInt8}
    (hspans : r.Spans addr bs.length) (hx : r.inside x = true) : (r.overwrite addr bs).byteAt x =
      if addr ≤ x ∧ x < addr + bs.length then bs[x - addr]? else r.byteAt x := by
  have hlow := hspans.low
  have hinside := Maps.inside_eq_true.mp hx
  have hover : (r.overwrite addr bs).byteAt x = (r.overwrite addr bs).mem[x - r.baseAddr]? :=
    if_pos hx
  have hold : r.byteAt x = r.mem[x - r.baseAddr]? := if_pos hx
  rw [hover, hold, Mem64.overwrite, getElem?_copyAt hspans.fits]
  by_cases hrange : addr ≤ x ∧ x < addr + bs.length
  · rw [if_pos (by omega), if_pos hrange]
    congr 1
    omega
  · rw [if_neg (by omega), if_neg hrange]

namespace Maps

variable {m m' m'' : Maps} {addr size value : Nat} {bs bs' : List UInt8}

/-- The second store has the same regions and the bytes `bs` at `addr`. -/
structure Stores (m m' : Maps) (addr : Nat) (bs : List UInt8) : Prop where
  wf : m'.Wf
  index : m'.maps = m.maps
  frame : ∀ key, (m'.memSlab.get key).map Mem64.frame = (m.memSlab.get key).map Mem64.frame
  bytes : ∀ x, m'.byteAt x = if addr ≤ x ∧ x < addr + bs.length then bs[x - addr]? else m.byteAt x

theorem Wf.stores_of_eq (hwf : m.Wf) (m' : Maps) (hslab : m'.memSlab = m.memSlab) (hmaps : m'.maps = m.maps)
    (hnames : m'.nameMap = m.nameMap) (addr : Nat) : Stores m m' addr [] := by
  refine ⟨hwf.congr hslab hmaps hnames, hmaps, fun _ => by rw [hslab], fun x => ?_⟩
  rw [if_neg (by simp), byteAt, byteAt, searchMaps, searchMaps, hslab, hmaps]

variable {addr' : Nat}

theorem Stores.append (h₁ : Stores m m' addr bs) (h₂ : Stores m' m'' addr' bs')
    (haddr : addr' = addr + bs.length) : Stores m m'' addr (bs ++ bs') := by
  refine ⟨h₂.wf, h₂.index.trans h₁.index, fun key => (h₂.frame key).trans (h₁.frame key),
    fun x => ?_⟩
  rw [h₂.bytes, h₁.bytes, length_append, List.getElem?_append]
  by_cases hlow : addr ≤ x
  · by_cases hfirst : x < addr + bs.length
    · rw [if_neg (by omega), if_pos ⟨hlow, hfirst⟩, if_pos (by omega), if_pos (by omega)]
    by_cases hsecond : x < addr + (bs.length + bs'.length)
    · rw [if_pos (by omega), if_pos ⟨hlow, hsecond⟩, if_neg (by omega)]
      congr 1
      omega
    · rw [if_neg (by omega), if_neg (by omega), if_neg (by omega)]
  · rw [if_neg (by omega), if_neg (by omega), if_neg (by omega)]

theorem Stores.unchanged (h : Stores m m' addr []) (addr' : Nat) : Stores m m' addr' [] := by
  refine ⟨h.wf, h.index, h.frame, fun x => ?_⟩
  rw [h.bytes, if_neg (by simp), if_neg (by simp)]

theorem Stores.symm (hwf : m.Wf) (h : Stores m m' addr []) : Stores m' m addr [] := by
  refine ⟨hwf, h.index.symm, fun key => (h.frame key).symm, fun x => ?_⟩
  rw [h.bytes, if_neg (by simp), if_neg (by simp)]

theorem Stores.after (h₁ : Stores m m' addr []) (h₂ : Stores m' m'' addr' bs) :
    Stores m m'' addr' bs :=
  (h₁.unchanged addr').append h₂ (Nat.add_zero _).symm

theorem Stores.before (h₁ : Stores m m' addr bs) (h₂ : Stores m' m'' addr' []) :
    Stores m m'' addr bs := by
  have happend := h₁.append (h₂.unchanged (addr + bs.length)) rfl
  rwa [append_nil] at happend

/-! ### Writes -/

variable {key : Nat}

theorem Wf.byteAt_of_get (hwf : m.Wf) (hget : m.memSlab.get key = some r) (hx : r.inside x = true) :
    m.byteAt x = r.byteAt x := by
  rw [byteAt, hwf.searchMaps_eq_some.mpr ⟨hget, hx⟩, bind_some]

theorem Changes.byteAt_eq (hchanges : Changes m m' key (some r')) (hwf : m.Wf)
    (hget : m.memSlab.get key = some r) (hframe : r'.frame = r.frame) :
    m'.byteAt x = if r.inside x then r'.byteAt x else m.byteAt x := by
  have hwf' := hchanges.wf hwf
  have hinside := inside_of_frame hframe x
  split
  · next hx => exact hwf'.byteAt_of_get hchanges.get_self (hinside.trans hx)
  · next hx =>
    have hsearch : m'.searchMaps x = m.searchMaps x := by
      refine Option.ext fun found => ?_
      obtain ⟨k, rk⟩ := found
      rw [hwf'.searchMaps_eq_some, hwf.searchMaps_eq_some, hchanges.get]
      split
      · next hk =>
        subst hk
        rw [hget]
        constructor
        · rintro ⟨heq, hin⟩
          obtain rfl := Option.some.inj heq
          exact absurd (hinside.symm.trans hin) hx
        · rintro ⟨heq, hin⟩
          obtain rfl := Option.some.inj heq
          exact absurd hin hx
      · rfl
    rw [byteAt, byteAt, hsearch]

theorem Covers.patch_stores (hcovers : m.Covers key r addr bs.length) :
    Stores m (m.patch key r addr bs) addr bs := by
  have hspans := hcovers.spans
  have hget := hcovers.get
  have hchanges : Changes m (m.patch key r addr bs) key (some (r.overwrite addr bs)) :=
    hcovers.wf.changes_set hget rfl rfl rfl rfl rfl (Nat.le_refl _) (hspans.overwrite hspans).sized
  refine ⟨hchanges.wf hcovers.wf, rfl, fun k => ?_, fun x => ?_⟩
  · rw [hchanges.get]
    split
    · next hk =>
      rw [hk, hget]
      rfl
    · rfl
  · rw [hchanges.byteAt_eq hcovers.wf hget rfl]
    by_cases hx : r.inside x = true
    · rw [if_pos hx, hspans.byteAt_overwrite hx, hcovers.wf.byteAt_of_get hget hx]
    · rw [if_neg hx, if_neg]
      exact fun hrange => hx (hspans.inside hrange.1 hrange.2)

theorem Wf.storeBytes_stores (hwf : m.Wf) (hget : m.memSlab.get key = some r)
    (hwrite : r.canWrite = true) (hlow : r.baseAddr ≤ addr)
    (hhigh : addr + bs.length ≤ r.bottomAddr) (hstore : m.storeBytes key r addr bs = some m') :
    Stores m m' addr bs := by
  have hcovers : m.Covers key r addr bs.length := ⟨hwf, hget, hlow, hhigh, hwf.sized key r hget⟩
  rw [Maps.storeBytes, Mem64.writeBytes, if_pos hwrite,
    forceWriteBytes_eq hlow hcovers.spans.fits, map_some] at hstore
  have hm' : m.patch key r addr bs = m' := Option.some.inj hstore
  exact hm' ▸ hcovers.patch_stores

theorem Wf.noteIf_stores (hwf : m.Wf) (exec : Bool) (addr len : Nat) :
    Stores m (m.noteIf exec addr len) addr [] := by
  rw [noteIf]
  split
  · obtain ⟨log, hlog⟩ := m.noteCodeWrite_eq addr len
    rw [hlog]
    exact hwf.stores_of_eq { m with codeWrites := log } rfl rfl rfl addr
  · exact hwf.stores_of_eq _ rfl rfl rfl addr

theorem Wf.bulkWrite_stores (hwf : m.Wf) {stop : Nat} {out : Bulk} (hstop : addr + bs.length ≤ stop + 1)
    (hwrite : m.bulkWrite addr stop bs = some (out, m')) :
    Stores m m' addr (if out = .done then bs else []) := by
  obtain ⟨tlb, hlookup⟩ := hwf.getMemByAddrMut_eq addr
  have hsame : Stores m { m with tlb := tlb } addr [] :=
    hwf.stores_of_eq { m with tlb := tlb } rfl rfl rfl addr
  rw [Maps.bulkWrite, hlookup] at hwrite
  cases hfound : m.searchMaps addr with
  | none =>
    rw [hfound] at hwrite
    cases hwrite
    exact hsame
  | some found =>
    obtain ⟨key, r⟩ := found
    obtain ⟨hget, hinside⟩ := hwf.searchMaps_eq_some.mp hfound
    simp only [hfound] at hwrite
    split at hwrite
    · next hcond =>
      rw [Bool.and_eq_true, inside_eq_true] at hcond
      rw [inside_eq_true] at hinside
      rw [map_eq_some_iff] at hwrite
      obtain ⟨m₁, hstore, heq⟩ := hwrite
      obtain ⟨rfl, rfl⟩ := Prod.mk.inj heq
      rw [if_pos rfl]
      have hstores := hsame.wf.storeBytes_stores hget hcond.2 hinside.1 (by omega) hstore
      exact (hsame.after hstores).before (hstores.wf.noteIf_stores _ _ _)
    · cases hwrite
      exact hsame

theorem Wf.writeAcross_stores (hwf : m.Wf) {nextKey : Nat} {mem next : Mem64} {ok : Bool}
    (hcross : Crosses m addr bs.length key mem nextKey next)
    (hwrite : m.writeAcross addr bs mem nextKey next = some (ok, m')) :
    ok = true ∧ Stores m m' addr bs := by
  obtain ⟨m₁, m₂, hfirst, hnext, hsecond, hacross⟩ := hwf.writeAcross_eq hcross
  cases hacross.symm.trans hwrite
  obtain ⟨hget, hinside⟩ := hwf.searchMaps_eq_some.mp hcross.found
  rw [inside_eq_true] at hinside
  have hspill := hcross.spill
  have hnextBase := hcross.next_base
  have hnextEnd := hcross.next_end
  have htake : (bs.take (mem.bottomAddr - addr)).length = mem.bottomAddr - addr :=
    length_take_of_le (by omega)
  have hdrop := length_drop (i := mem.bottomAddr - addr) (l := bs)
  have hstores₁ := hwf.storeBytes_stores hget hcross.writable hinside.1 (by omega) hfirst
  have hstores₂ := hstores₁.wf.storeBytes_stores hnext hcross.next_writable (by omega) (by omega)
    hsecond
  have hstores := hstores₁.append hstores₂ (by omega)
  rw [take_append_drop] at hstores
  exact ⟨rfl, hstores.before (hstores.wf.noteIf_stores _ _ _)⟩

theorem Wf.writeScalar_stores (hwf : m.Wf) (hsize : 0 < size) {ok : Bool}
    (hwrite : m.writeScalar size addr value = some (ok, m')) :
    Stores m m' addr (if ok then leBytes size value else []) := by
  have hlen := length_leBytes size value
  rcases hwf.writeScalar_cases hwrite with ⟨rfl, rfl⟩ | ⟨tlb, hcases⟩
  · exact hwf.stores_of_eq _ rfl rfl rfl addr
  have hsame : Stores m { m with tlb := tlb } addr [] :=
    hwf.stores_of_eq { m with tlb := tlb } rfl rfl rfl addr
  rcases hcases with ⟨key, mem, nextKey, next, hcross, hacross⟩ | ⟨out, hbulk, rfl⟩
  · obtain ⟨rfl, hstores⟩ := hsame.wf.writeAcross_stores hcross hacross
    exact hsame.after hstores
  · have hstores := hsame.wf.bulkWrite_stores (by omega) hbulk
    simp only [beq_iff_eq]
    exact hsame.after hstores

/-! ### Reads -/

def bytesAt (m : Maps) (addr size : Nat) : List UInt8 :=
  (List.range size).map fun i => (m.byteAt (addr + i)).getD 0

theorem bytesAt_add (m : Maps) (addr n k : Nat) :
    m.bytesAt addr (n + k) = m.bytesAt addr n ++ m.bytesAt (addr + n) k := by
  rw [bytesAt, bytesAt, bytesAt, List.range_add, List.map_append, List.map_map]
  simp only [Function.comp_def, Nat.add_assoc]

theorem length_bytesAt (m : Maps) (addr size : Nat) : (m.bytesAt addr size).length = size := by
  rw [bytesAt, length_map, length_range]

theorem bytesAt_congr (hsame : ∀ i < size, m'.byteAt (addr + i) = m.byteAt (addr + i)) :
    m'.bytesAt addr size = m.bytesAt addr size :=
  map_congr_left fun i hi => by rw [hsame i (mem_range.mp hi)]

theorem Stores.bytesAt_eq (hstores : Stores m m' addr bs) : m'.bytesAt addr bs.length = bs := by
  apply ext_getElem
  · exact length_bytesAt m' addr bs.length
  intro i hi hi'
  have hbyte : m'.byteAt (addr + i) = some bs[i] := by
    rw [hstores.bytes, if_pos ⟨by omega, by omega⟩, Nat.add_sub_cancel_left,
      List.getElem?_eq_getElem hi']
  simp only [bytesAt, getElem_map, getElem_range, hbyte, getD_some]

theorem Wf.readBytes_eq_bytesAt (hwf : m.Wf) (hget : m.memSlab.get key = some r)
    (hspans : r.Spans addr size) (hread : r.canRead = true) :
    r.readBytes addr size = m.bytesAt addr size := by
  have hlow := hspans.low
  have hfits := hspans.fits
  rw [hspans.readBytes_eq hread]
  refine ext_getElem? fun i => ?_
  rw [bytesAt, List.getElem?_map, List.getElem?_take, List.getElem?_drop]
  split
  · next hi =>
    have hx : r.inside (addr + i) = true := hspans.inside (Nat.le_add_right _ _) (by omega)
    have hidx : addr + i - r.baseAddr = addr - r.baseAddr + i := by omega
    rw [List.getElem?_range hi, map_some, hwf.byteAt_of_get hget hx, Mem64.byteAt,
      if_pos hx, hidx, List.getElem?_eq_getElem (by omega), getD_some]
  · next hi => rw [List.getElem?_eq_none (by simpa using hi), map_none]

def peek (m : Maps) (size addr : Nat) : Option Nat :=
  if 2 ^ 64 ≤ addr + (size - 1) then none
  else
    (m.searchMaps addr).bind fun found =>
      if found.2.inside (addr + (size - 1)) && found.2.canRead then
        some (leValue (found.2.readBytes addr size))
      else if !found.2.inside (addr + (size - 1)) && found.2.canRead && decide (1 < size) then
        (m.nextMem found.2 addr size Mem64.canRead).map fun next =>
          leValue (found.2.readBytes addr (found.2.bottomAddr - addr) ++
            next.2.readBytes found.2.bottomAddr (size - (found.2.bottomAddr - addr)))
      else none

theorem Wf.readScalar_eq (hwf : m.Wf) (size addr : Nat) :
    ∃ tlb, m.readScalar size addr = (m.peek size addr, { m with tlb := tlb }) := by
  obtain ⟨tlb, hlookup⟩ := hwf.getMemByAddr_eq addr
  simp only [readScalar, peek, hlookup]
  split
  · exact ⟨m.tlb, rfl⟩
  refine ⟨tlb, ?_⟩
  cases m.searchMaps addr with
  | none => rfl
  | some found =>
    obtain ⟨key, mem⟩ := found
    simp only [bind_some]
    split
    · rfl
    split
    · have hnext : { m with tlb := tlb }.nextMem mem addr size Mem64.canRead =
          m.nextMem mem addr size Mem64.canRead := rfl
      rw [hnext]
      cases m.nextMem mem addr size Mem64.canRead <;> rfl
    · rfl

theorem Wf.readScalar_fst (hwf : m.Wf) (size addr : Nat) :
    (m.readScalar size addr).1 = m.peek size addr := by
  obtain ⟨tlb, hread⟩ := hwf.readScalar_eq size addr
  rw [hread]

theorem Wf.readScalar_stores (hwf : m.Wf) (size addr : Nat) :
    Stores m (m.readScalar size addr).2 0 [] := by
  obtain ⟨tlb, hread⟩ := hwf.readScalar_eq size addr
  rw [hread]
  exact hwf.stores_of_eq { m with tlb := tlb } rfl rfl rfl 0

theorem Wf.peek_eq_bytesAt (hwf : m.Wf) (hsize : 0 < size) (hpeek : m.peek size addr = some value) :
    value = leValue (m.bytesAt addr size) := by
  rw [peek, ite_none_left_eq_some] at hpeek
  obtain ⟨-, hpeek⟩ := hpeek
  rw [bind_eq_some_iff] at hpeek
  obtain ⟨⟨key, mem⟩, hfound, hpeek⟩ := hpeek
  obtain ⟨hget, hinside⟩ := hwf.searchMaps_eq_some.mp hfound
  have hsized := hwf.sized key mem hget
  rw [inside_eq_true] at hinside
  dsimp only at hpeek
  split at hpeek
  · next hone =>
    rw [Bool.and_eq_true, inside_eq_true] at hone
    rw [hwf.readBytes_eq_bytesAt hget ⟨hinside.1, by omega, hsized⟩ hone.2] at hpeek
    exact (Option.some.inj hpeek).symm
  split at hpeek
  · next htwo =>
    simp only [Bool.and_eq_true, Bool.not_eq_true', ← Bool.not_eq_true, inside_eq_true] at htwo
    rw [map_eq_some_iff] at hpeek
    obtain ⟨⟨nextKey, next⟩, hnext, rfl⟩ := hpeek
    obtain ⟨hbase, hnextGet, hnextRead, hnextInside⟩ := hwf.nextMem_eq_some hnext
    rw [inside_eq_true] at hnextInside
    rw [hwf.readBytes_eq_bytesAt hget ⟨hinside.1, by omega, hsized⟩ htwo.1.2,
      hwf.readBytes_eq_bytesAt hnextGet ⟨by omega, by omega, hwf.sized _ _ hnextGet⟩ hnextRead]
    have hsplit : size = (mem.bottomAddr - addr) + (size - (mem.bottomAddr - addr)) := by omega
    have haddr : addr + (mem.bottomAddr - addr) = mem.bottomAddr := by omega
    conv_rhs => rw [hsplit, bytesAt_add, haddr]
  · cases hpeek

theorem Covers.writeBytes_stores (hcovers : m.Covers key r addr bs.length)
    (hwrite : r.canWrite = true) :
    ∃ m', m.writeBytes addr bs = some (true, m') ∧ Stores m m' addr bs := by
  by_cases hnil : bs = []
  · refine ⟨m, if_pos hnil, ?_⟩
    rw [hnil]
    exact hcovers.wf.stores_of_eq m rfl rfl rfl addr
  have hlen : 0 < bs.length := length_pos_iff.mpr hnil
  have hlt := hcovers.lt_two_pow
  obtain ⟨tlb, hbulk⟩ := hcovers.bulkWrite_noteIf hlen hwrite
  refine ⟨_, ?_, hcovers.wf.bulkWrite_stores (by omega) hbulk⟩
  rw [Maps.writeBytes, if_neg hnil, if_neg (by omega), hbulk]
  rfl

theorem Covers.memcpy_stores {dst src key' : Nat} (hdst : m.Covers key r dst size)
    (hsrc : m.Covers key' r' src size) (hsize : 0 < size) (hread : r'.canRead = true)
    (hwrite : r.canWrite = true) :
    ∃ m', m.memcpy dst src size = some (true, m') ∧ Stores m m' dst (m.bytesAt src size) := by
  obtain ⟨tlb, htry⟩ := hsrc.tryReadBytes hsize hread
  have hbytes : r'.readBytes src size = m.bytesAt src size :=
    hsrc.wf.readBytes_eq_bytesAt hsrc.get hsrc.spans hread
  have hsame : Stores m { m with tlb := tlb } dst [] :=
    hsrc.wf.stores_of_eq { m with tlb := tlb } rfl rfl rfl dst
  have hdst₁ : Covers { m with tlb := tlb } key r dst (m.bytesAt src size).length := by
    rw [length_bytesAt]
    exact hdst.withTlb tlb
  obtain ⟨m', hcall, hstores⟩ := hdst₁.writeBytes_stores hwrite
  refine ⟨m', ?_, hsame.after hstores⟩
  rw [Maps.memcpy, htry, hbytes]
  dsimp only
  rw [hcall]
  rfl

variable {a : Nat}

section

theorem get_of_frame (hget : m.memSlab.get key = some r)
    (hframe : (m'.memSlab.get key).map Mem64.frame = (m.memSlab.get key).map Mem64.frame) :
    ∃ r', m'.memSlab.get key = some r' ∧ r'.frame = r.frame := by
  rwa [hget, map_some, map_eq_some_iff] at hframe

variable (hstores : Stores m m' a bs)
include hstores

theorem Stores.get (hget : m.memSlab.get key = some r) :
    ∃ r', m'.memSlab.get key = some r' ∧ r'.frame = r.frame :=
  get_of_frame hget (hstores.frame key)

theorem Stores.searchMaps (hfound : m.searchMaps x = some (key, r)) :
    ∃ r', m'.searchMaps x = some (key, r') ∧ r'.frame = r.frame := by
  obtain ⟨base, hfloor, hget, hinside⟩ := searchMaps_eq_some_iff.mp hfound
  obtain ⟨r', hget', hframe⟩ := hstores.get hget
  refine ⟨r', searchMaps_eq_some_iff.mpr ⟨base, hstores.index ▸ hfloor, hget', ?_⟩, hframe⟩
  rw [inside_of_frame hframe]
  exact hinside

theorem Stores.nextMem {nextKey : Nat} {mem mem' next : Mem64} (hmem : mem'.frame = mem.frame)
    (hnext : m.nextMem mem addr size Mem64.canRead = some (nextKey, next)) :
    ∃ next', m'.nextMem mem' addr size Mem64.canRead = some (nextKey, next') := by
  simp only [Maps.nextMem, bind_eq_bind, bind_eq_some_iff, Prod.exists,
    ite_none_right_eq_some, Option.some.injEq, Prod.mk.injEq] at hnext
  obtain ⟨base, key, hceil, r, hget, ⟨hbase, hread, hinside⟩, rfl, rfl⟩ := hnext
  obtain ⟨r', hget', hframe⟩ := hstores.get hget
  refine ⟨r', ?_⟩
  have hcond : base = mem'.bottomAddr ∧ r'.canRead = true ∧
      r'.inside (mem'.bottomAddr + (size - (mem'.bottomAddr - addr)) - 1) = true := by
    rw [bottomAddr_of_frame hmem, canRead_of_frame hframe, inside_of_frame hframe]
    exact ⟨hbase, hread, hinside⟩
  have hceil' : m'.maps.ceil mem'.bottomAddr = some (base, key) := by
    rw [hstores.index, bottomAddr_of_frame hmem]
    exact hceil
  simp only [Maps.nextMem, bind_eq_bind, hceil', bind_some, hget', if_pos hcond]

theorem Stores.peek_isSome (hpeek : (m.peek size addr).isSome = true) :
    (m'.peek size addr).isSome = true := by
  obtain ⟨v, hpeek⟩ := isSome_iff_exists.mp hpeek
  rw [peek, ite_none_left_eq_some, bind_eq_some_iff] at hpeek
  obtain ⟨hstop, ⟨key, mem⟩, hfound, hpeek⟩ := hpeek
  obtain ⟨mem', hfound', hframe⟩ := hstores.searchMaps hfound
  rw [peek, if_neg hstop, hfound', bind_some]
  simp only [inside_of_frame hframe, canRead_of_frame hframe]
  dsimp only at hpeek
  split
  · rfl
  · next hone =>
    rw [if_neg hone] at hpeek
    split
    · next htwo =>
      rw [if_pos htwo, map_eq_some_iff] at hpeek
      obtain ⟨⟨nextKey, next⟩, hnext, -⟩ := hpeek
      obtain ⟨next', hnext'⟩ := hstores.nextMem hframe hnext
      rw [hnext', map_some, isSome_some]
    · next htwo =>
      rw [if_neg htwo] at hpeek
      cases hpeek

theorem Stores.peek_of_bytesAt (hsize : 0 < size) (hpeek : (m.peek size addr).isSome = true) :
    m'.peek size addr = some (leValue (m'.bytesAt addr size)) := by
  obtain ⟨v, hv⟩ := isSome_iff_exists.mp (hstores.peek_isSome hpeek)
  rw [hv, hstores.wf.peek_eq_bytesAt hsize hv]

end

theorem Stores.peek_self (hstores : Stores m m' addr (leBytes size value)) (hsize : 0 < size)
    (hpeek : (m.peek size addr).isSome = true) : m'.peek size addr = some (value % 256 ^ size) := by
  have hbytes : m'.bytesAt addr size = leBytes size value := by
    refine ext_getElem? fun i => ?_
    rw [bytesAt, List.getElem?_map]
    by_cases hi : i < size
    · have hlen := length_leBytes size value
      rw [List.getElem?_range hi, map_some, hstores.bytes, if_pos (by omega),
        Nat.add_sub_cancel_left, List.getElem?_eq_getElem (by omega), getD_some]
    · rw [List.getElem?_eq_none (by simpa using hi), map_none,
        List.getElem?_eq_none (by rw [length_leBytes]; omega)]
  rw [hstores.peek_of_bytesAt hsize hpeek, hbytes, leValue_leBytes]

theorem Stores.peek_apart {v : Nat} (hwf : m.Wf) (hstores : Stores m m' a bs) (hsize : 0 < size)
    (hapart : a + bs.length ≤ addr ∨ addr + size ≤ a) (hpeek : m.peek size addr = some v) :
    m'.peek size addr = some v := by
  have hbytes : m'.bytesAt addr size = m.bytesAt addr size := by
    rw [bytesAt, bytesAt]
    refine map_congr_left fun i hi => ?_
    rw [mem_range] at hi
    rw [hstores.bytes, if_neg (by omega)]
  rw [hstores.peek_of_bytesAt hsize (isSome_of_mem hpeek), hbytes, hwf.peek_eq_bytesAt hsize hpeek]

end Maps

end Mwemu
