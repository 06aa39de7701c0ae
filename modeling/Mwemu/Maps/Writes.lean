import Mwemu.Maps.Steps

/-!
# Guest memory accesses

The scalar and bulk accesses of `Maps`. A scalar may start in one region and end in the next; a bulk
write that leaves its first region goes on byte by byte and stops at the first byte it cannot write.
Every write keeps the store well formed and logs the executable bytes it changes.
-/

namespace Mwemu

open Mwemu.Lib List Option

def leBytes (size value : Nat) : List UInt8 :=
  (List.range size).map fun i => UInt8.ofNat (value / 256 ^ i)

def leValue (bytes : List UInt8) : Nat :=
  bytes.foldr (fun b value => b.toNat + 256 * value) 0

theorem length_leBytes (size value : Nat) : (leBytes size value).length = size := by
  rw [leBytes, length_map, length_range]

namespace Maps

/-! ### Reads -/

/-- The region that starts where `mem` ends, for the part of an access behind that end. -/
def nextMem (m : Maps) (mem : Mem64) (addr size : Nat) (allowed : Mem64 → Bool) :
    Option (Nat × Mem64) := do
  let (nextBase, nextKey) ← m.maps.ceil mem.bottomAddr
  let next ← m.memSlab.get nextKey
  if nextBase = mem.bottomAddr ∧ allowed next ∧
      next.inside (mem.bottomAddr + (size - (mem.bottomAddr - addr)) - 1) then
    some (nextKey, next)
  else none

/-- The bytes a scalar read of `size` bytes returns, and the store with the lookup buffer it
leaves. -/
def readScalar (m : Maps) (size addr : Nat) : Option Nat × Maps :=
  let stop := addr + (size - 1)
  if 2 ^ 64 ≤ stop then (none, m)
  else
    match m.getMemByAddr addr with
    | (none, m) => (none, m)
    | (some (_, mem), m) =>
      if mem.inside stop && mem.canRead then (some (leValue (mem.readBytes addr size)), m)
      else if !mem.inside stop && mem.canRead && decide (1 < size) then
        match m.nextMem mem addr size Mem64.canRead with
        | some (_, next) =>
          let loLen := mem.bottomAddr - addr
          (some (leValue (mem.readBytes addr loLen ++
            next.readBytes mem.bottomAddr (size - loLen))), m)
        | none => (none, m)
      else (none, m)

def tryReadBytes (m : Maps) (addr sz : Nat) : Option (List UInt8) × Maps :=
  if sz = 0 then (some [], m)
  else
    let stop := (addr + sz - 1) % 2 ^ 64
    match m.getMemByAddr addr with
    | (none, m) => (none, m)
    | (some (_, mem), m) =>
      if !mem.inside stop || !mem.canRead then (none, m) else (some (mem.readBytes addr sz), m)

def maxReadBytes : Nat := 0x300

def zeroSlice (sz : Nat) : Option (List UInt8) :=
  if sz ≤ maxReadBytes then some (List.replicate sz 0) else none

def readBytes (m : Maps) (addr sz : Nat) : Option (List UInt8 × Maps) :=
  match m.tryReadBytes addr sz with
  | (some bytes, m) => some (bytes, m)
  | (none, m) => (zeroSlice sz).map fun zeros => (zeros, m)

/-! ### Writes -/

def storeBytes (m : Maps) (key : Nat) (r : Mem64) (addr : Nat) (bs : List UInt8) : Option Maps :=
  (r.writeBytes addr bs).map fun r' => { m with memSlab := m.memSlab.set key r' }

def noteIf (m : Maps) (exec : Bool) (addr len : Nat) : Maps :=
  if exec then m.noteCodeWrite addr len else m

/-- The outcome of a write that must stay in one region. -/
inductive Bulk where
  | done
  | refused
  | unmapped
  deriving DecidableEq, Repr

/-- The write of `bs` to the region of `addr`, if that region is writable and `stop` is inside. -/
def bulkWrite (m : Maps) (addr stop : Nat) (bs : List UInt8) : Option (Bulk × Maps) :=
  match m.getMemByAddrMut addr with
  | (none, m) => some (.unmapped, m)
  | (some (key, r), m) =>
    if r.inside stop && r.canWrite then
      (m.storeBytes key r addr bs).map fun m =>
        (.done, m.noteIf r.canExecute addr bs.length)
    else some (.refused, m)

def writeAcross (m : Maps) (addr : Nat) (bs : List UInt8) (mem : Mem64) (nextKey : Nat)
    (next : Mem64) : Option (Bool × Maps) :=
  let loLen := mem.bottomAddr - addr
  match m.maps.floor addr with
  | none => some (false, m)
  | some (_, firstKey) =>
    match m.memSlab.get firstKey with
    | none => some (false, m)
    | some first => do
        let m ← m.storeBytes firstKey first addr (bs.take loLen)
        match m.memSlab.get nextKey with
        | none => some (false, m)
        | some nextMut => do
            let m ← m.storeBytes nextKey nextMut mem.bottomAddr (bs.drop loLen)
            some (true, m.noteIf (mem.canExecute || next.canExecute) addr bs.length)

/-- The region of `addr` and the one behind it, when a scalar write crosses their boundary. -/
def crossing (m : Maps) (found : Option (Nat × Mem64)) (addr stop size : Nat) :
    Option (Mem64 × Nat × Mem64) := do
  let (_, mem) ← found
  if !mem.inside stop && mem.canWrite then
    (m.nextMem mem addr size Mem64.canWrite).map fun next => (mem, next)
  else none

def writeScalar (m : Maps) (size addr value : Nat) : Option (Bool × Maps) :=
  let stop := addr + (size - 1)
  let bs := leBytes size value
  if 2 ^ 64 ≤ stop then some (false, m)
  else
    let (found, m) := if 1 < size then m.getMemByAddr addr else (none, m)
    match m.crossing found addr stop size with
    | some (mem, nextKey, next) => m.writeAcross addr bs mem nextKey next
    | none => (m.bulkWrite addr stop bs).map fun out => (out.1 == .done, out.2)

def writeByte (m : Maps) (addr value : Nat) : Option (Bool × Maps) :=
  m.writeScalar 1 addr value

def writeEach (m : Maps) : List (Nat × UInt8) → Option (Bool × Maps)
  | [] => some (true, m)
  | (addr, b) :: rest =>
    (m.writeByte addr b.toNat).bind fun out =>
      if out.1 then out.2.writeEach rest else some (false, out.2)

def writeBytes (m : Maps) (addr : Nat) (data : List UInt8) : Option (Bool × Maps) :=
  if data = [] then some (true, m)
  else if 2 ^ 64 ≤ addr + (data.length - 1) then some (false, m)
  else
    (m.bulkWrite addr (addr + (data.length - 1)) data).bind fun out =>
      match out.1 with
      | .done => some (true, out.2)
      | .unmapped => some (false, out.2)
      | .refused => out.2.writeEach (data.mapIdx fun i b => (addr + i, b))

def memset (m : Maps) (addr : Nat) (b : UInt8) (amount : Nat) : Option Maps :=
  if amount = 0 then some m
  else
    (m.bulkWrite addr ((addr + amount - 1) % 2 ^ 64) (List.replicate amount b)).bind fun out =>
      match out.1 with
      | .done => some out.2
      | _ => (out.2.writeEach ((List.range amount).map fun i => ((addr + i) % 2 ^ 64, b))).map
          Prod.snd

def memcpy (m : Maps) (dst src size : Nat) : Option (Bool × Maps) :=
  match m.tryReadBytes src size with
  | (none, m) => some (false, m)
  | (some bs, m) => (m.writeBytes dst bs).map fun out => (true, out.2)

/-! ### What a write leaves -/

end Maps

/-- The second region is the first with bytes of `[addr, addr + len)` replaced. -/
structure Mem64.Rewrites (r r' : Mem64) (addr len : Nat) : Prop where
  name : r'.memName = r.memName
  base : r'.baseAddr = r.baseAddr
  bottom : r'.bottomAddr = r.bottomAddr
  permission : r'.permission = r.permission
  size : r'.size = r.size
  outside : ∀ x, ¬ (addr ≤ x ∧ x < addr + len) → r'.byteAt x = r.byteAt x

variable {bs : List UInt8}

theorem Mem64.getElem?_copyAt {bytes : List UInt8} {idx : Nat}
    (hfits : idx + bs.length ≤ bytes.length) (j : Nat) : (copyAt bytes idx bs)[j]? =
      if idx ≤ j ∧ j < idx + bs.length then bs[j - idx]? else bytes[j]? := by
  have htake : (bytes.take idx).length = idx := length_take_of_le (by omega)
  rw [copyAt, append_assoc, List.getElem?_append, htake]
  by_cases hlow : j < idx
  · rw [if_pos hlow, if_neg (by omega), List.getElem?_take_of_lt hlow]
  rw [if_neg hlow, List.getElem?_append]
  by_cases hhigh : j < idx + bs.length
  · rw [if_pos (by omega), if_pos (by omega)]
  · rw [if_neg (by omega), if_neg (by omega), List.getElem?_drop]
    congr 1
    omega

variable {r : Mem64} {addr : Nat}

theorem Mem64.rewrites_writeBytes {r' : Mem64} (hwrite : r.writeBytes addr bs = some r') :
    r.Rewrites r' addr bs.length := by
  rw [Mem64.writeBytes] at hwrite
  split at hwrite
  · rw [forceWriteBytes, ite_none_right_eq_some] at hwrite
    obtain ⟨⟨hbase, hfits⟩, heq⟩ := hwrite
    cases heq
    refine ⟨rfl, rfl, rfl, rfl, length_copyAt hfits, fun x hx => ?_⟩
    by_cases hinside : r.inside x = true
    · have hrange := Maps.inside_eq_true.mp hinside
      refine (if_pos hinside).trans (Eq.trans ?_ (if_pos hinside).symm)
      exact (getElem?_copyAt hfits (x - r.baseAddr)).trans (if_neg (by omega))
    · exact (if_neg hinside).trans (if_neg hinside).symm
  · cases hwrite
    exact ⟨rfl, rfl, rfl, rfl, rfl, fun _ _ => rfl⟩

namespace Maps

variable {m m' m'' : Maps}

/-- Executable bytes differ only in `[addr, addr + len)`, and only if `exec`; nothing is logged
yet. -/
structure Wrote (m m' : Maps) (exec : Bool) (addr len : Nat) : Prop where
  wf : m'.Wf
  log : m'.codeWrites = m.codeWrites
  code : ∀ x, m'.codeAt x ≠ m.codeAt x → exec = true ∧ addr ≤ x ∧ x < addr + len

theorem Wrote.trans {exec exec' : Bool} {addr' len len' : Nat} (h₁ : Wrote m m' exec addr len)
    (h₂ : Wrote m' m'' exec' addr' len') (hlow : addr ≤ addr')
    (hhigh : addr' + len' = addr + (len + len')) :
    Wrote m m'' (exec || exec') addr (len + len') := by
  refine ⟨h₂.wf, h₂.log.trans h₁.log, fun x hne => ?_⟩
  rw [Bool.or_eq_true]
  by_cases hlast : m''.codeAt x = m'.codeAt x
  · rw [hlast] at hne
    have hx := h₁.code x hne
    exact ⟨.inl hx.1, by omega⟩
  · have hx := h₂.code x hlast
    exact ⟨.inr hx.1, by omega⟩

theorem Wrote.note {exec : Bool} {len : Nat} (hwrote : Wrote m m' exec addr len) :
    (m'.noteIf exec addr len).Wf ∧ Logged m (m'.noteIf exec addr len) := by
  rw [noteIf]
  split
  · obtain ⟨log, hlog⟩ := m'.noteCodeWrite_eq addr len
    refine ⟨by rw [hlog]; exact hwrote.wf.congr rfl rfl rfl, fun x hne => ?_, ?_⟩
    · refine covered_noteCodeWrite (hwrote.code x ?_).2
      rwa [hlog] at hne
    · exact (LogGrows.of_eq hwrote.log).trans (.noteCodeWrite m' addr len)
  · next hexec =>
    exact ⟨hwrote.wf, fun x hne => absurd (hwrote.code x hne).1 hexec, .of_eq hwrote.log⟩

variable {key : Nat}

theorem Wf.storeBytes (hwf : m.Wf) (hget : m.memSlab.get key = some r)
    (hstore : m.storeBytes key r addr bs = some m') : Wrote m m' r.canExecute addr bs.length := by
  rw [Maps.storeBytes, map_eq_some_iff] at hstore
  obtain ⟨r', hwrite, rfl⟩ := hstore
  have hrewrites := Mem64.rewrites_writeBytes hwrite
  have hsized := hwf.sized key r hget
  have hchanges : Changes m { m with memSlab := m.memSlab.set key r' } key (some r') := by
    refine hwf.changes_set hget rfl rfl rfl hrewrites.name hrewrites.base
      (Nat.le_of_eq hrewrites.bottom) ?_
    rw [hrewrites.bottom, hrewrites.base, hrewrites.size, hsized]
  refine ⟨hchanges.wf hwf, rfl, fun x hne => ?_⟩
  have hcode : r'.codeAt x ≠ r.codeAt x := by
    refine fun hsame => hne (hchanges.codeAt_eq hwf ?_)
    rw [hget, bind_some, bind_some, hsame]
  have hperm : r'.canExecute = r.canExecute := by
    rw [Mem64.canExecute, hrewrites.permission, Mem64.canExecute]
  rw [Mem64.codeAt, Mem64.codeAt, hperm] at hcode
  split at hcode
  · next hexec =>
    refine ⟨hexec, ?_⟩
    by_contra hx
    exact hcode (hrewrites.outside x hx)
  · exact absurd rfl hcode

theorem Wf.bulkWrite (hwf : m.Wf) {stop : Nat} {out : Bulk}
    (hwrite : m.bulkWrite addr stop bs = some (out, m')) : m'.Wf ∧ Logged m m' := by
  obtain ⟨tlb, hlookup⟩ := hwf.getMemByAddrMut_eq addr
  have hwf₁ : Wf { m with tlb := tlb } := hwf.congr rfl rfl rfl
  have hsame : Logged m { m with tlb := tlb } := Logged.of_eq rfl rfl rfl
  rw [Maps.bulkWrite, hlookup] at hwrite
  cases hfound : m.searchMaps addr with
  | none =>
    rw [hfound] at hwrite
    cases hwrite
    exact ⟨hwf₁, hsame⟩
  | some found =>
    obtain ⟨key, r⟩ := found
    have hget := (hwf.searchMaps_eq_some.mp hfound).1
    simp only [hfound] at hwrite
    split at hwrite
    · rw [map_eq_some_iff] at hwrite
      obtain ⟨m₁, hstore, heq⟩ := hwrite
      obtain ⟨-, rfl⟩ := Prod.mk.inj heq
      obtain ⟨hwf', hlogged⟩ := (hwf₁.storeBytes hget hstore).note
      exact ⟨hwf', hsame.trans hlogged⟩
    · cases hwrite
      exact ⟨hwf₁, hsame⟩

theorem Wf.floor_of_search (hwf : m.Wf) (hfound : m.searchMaps addr = some (key, r)) :
    m.maps.floor addr = some (r.baseAddr, key) := by
  obtain ⟨base, hfloor, hget, -⟩ := searchMaps_eq_some_iff.mp hfound
  obtain ⟨r', hget', rfl⟩ := (hwf.based base key).mp (OrdMap.floor_eq_some.mp hfloor).1
  obtain rfl := Option.some.inj (hget.symm.trans hget')
  exact hfloor

variable {mem next : Mem64} {size nextKey : Nat}

theorem Wf.nextMem_eq_some (hwf : m.Wf) {allowed : Mem64 → Bool}
    (hnext : m.nextMem mem addr size allowed = some (nextKey, next)) :
    next.baseAddr = mem.bottomAddr ∧ m.memSlab.get nextKey = some next ∧ allowed next = true ∧
      next.inside (mem.bottomAddr + (size - (mem.bottomAddr - addr)) - 1) = true := by
  simp only [nextMem, bind_eq_bind, bind_eq_some_iff, Prod.exists,
    ite_none_right_eq_some, Option.some.injEq, Prod.mk.injEq] at hnext
  obtain ⟨base, key, hceil, r, hget, ⟨rfl, hallowed, hinside⟩, rfl, rfl⟩ := hnext
  obtain ⟨r', hget', hbase⟩ := (hwf.based _ _).mp (OrdMap.ceil_eq_some hceil).1
  obtain rfl := Option.some.inj (hget.symm.trans hget')
  exact ⟨hbase, hget, hallowed, hinside⟩

variable {ok : Bool}

theorem exists_storeBytes (m : Maps) (key : Nat) (bs : List UInt8) (hwrite : r.canWrite = true)
    (hlow : r.baseAddr ≤ addr) (hfits : addr - r.baseAddr + bs.length ≤ r.mem.length) :
    ∃ m', m.storeBytes key r addr bs = some m' := by
  rw [Maps.storeBytes, Mem64.writeBytes, if_pos hwrite,
    Mem64.forceWriteBytes_eq hlow hfits]
  exact ⟨_, rfl⟩

section

variable (hwf : m.Wf)
include hwf

/-- A scalar write at `addr` starts in `mem` and ends in `next`, the region behind it. -/
structure Crosses (m : Maps) (addr size key : Nat) (mem : Mem64) (nextKey : Nat) (next : Mem64) :
    Prop where
  found : m.searchMaps addr = some (key, mem)
  writable : mem.canWrite = true
  spill : mem.bottomAddr < addr + size
  next_get : m.memSlab.get nextKey = some next
  next_base : next.baseAddr = mem.bottomAddr
  next_writable : next.canWrite = true
  next_end : addr + size ≤ next.bottomAddr
  next_ne : nextKey ≠ key

/-- A write that crosses stores its two parts one after the other. -/
theorem Wf.writeAcross_eq (hcross : Crosses m addr bs.length key mem nextKey next) :
    ∃ m₁ m₂, m.storeBytes key mem addr (bs.take (mem.bottomAddr - addr)) = some m₁ ∧
      m₁.memSlab.get nextKey = some next ∧
      m₁.storeBytes nextKey next mem.bottomAddr (bs.drop (mem.bottomAddr - addr)) = some m₂ ∧
      m.writeAcross addr bs mem nextKey next =
        some (true, m₂.noteIf (mem.canExecute || next.canExecute) addr bs.length) := by
  obtain ⟨hget, hinside⟩ := hwf.searchMaps_eq_some.mp hcross.found
  rw [inside_eq_true] at hinside
  have hspill := hcross.spill
  have hnextBase := hcross.next_base
  have hnextEnd := hcross.next_end
  have hsized : mem.bottomAddr = mem.baseAddr + mem.mem.length := hwf.sized key mem hget
  have hnextSized : next.bottomAddr = next.baseAddr + next.mem.length :=
    hwf.sized nextKey next hcross.next_get
  obtain ⟨m₁, hfirst⟩ := exists_storeBytes m key (bs.take (mem.bottomAddr - addr))
    hcross.writable hinside.1 (by rw [length_take]; omega)
  have hnext : m₁.memSlab.get nextKey = some next := by
    rw [Maps.storeBytes, map_eq_some_iff] at hfirst
    obtain ⟨r', -, rfl⟩ := hfirst
    rw [Slab.get_set _ (by rw [hget]; rfl), if_neg hcross.next_ne, hcross.next_get]
  obtain ⟨m₂, hsecond⟩ := exists_storeBytes m₁ nextKey (bs.drop (mem.bottomAddr - addr))
    hcross.next_writable (le_of_eq hnextBase) (by rw [length_drop]; omega)
  refine ⟨m₁, m₂, hfirst, hnext, hsecond, ?_⟩
  simp only [Maps.writeAcross, hwf.floor_of_search hcross.found, hget, bind_eq_bind, hfirst,
    bind_some, hnext, hsecond]

theorem Wf.writeAcross (hcross : Crosses m addr bs.length key mem nextKey next)
    (hwrite : m.writeAcross addr bs mem nextKey next = some (ok, m')) : m'.Wf ∧ Logged m m' := by
  obtain ⟨m₁, m₂, hfirst, hnext, hsecond, hacross⟩ := hwf.writeAcross_eq hcross
  cases hacross.symm.trans hwrite
  obtain ⟨hget, hinside⟩ := hwf.searchMaps_eq_some.mp hcross.found
  rw [inside_eq_true] at hinside
  have hspill := hcross.spill
  have hwrote₁ := hwf.storeBytes hget hfirst
  have hwrote₂ := hwrote₁.wf.storeBytes hnext hsecond
  have htake : (bs.take (mem.bottomAddr - addr)).length = mem.bottomAddr - addr :=
    length_take_of_le (by omega)
  have hdrop := length_drop (i := mem.bottomAddr - addr) (l := bs)
  have hwrote := hwrote₁.trans hwrote₂ (by omega) (by omega)
  have hlen : (bs.take (mem.bottomAddr - addr)).length +
      (bs.drop (mem.bottomAddr - addr)).length = bs.length := by omega
  rw [hlen] at hwrote
  exact hwrote.note

/-- What the first lookup of a scalar write finds. -/
theorem Wf.lookup (size addr : Nat) : ∃ tlb,
    (if 1 < size then m.getMemByAddr addr else (none, m)) =
      (if 1 < size then m.searchMaps addr else none, { m with tlb := tlb }) := by
  split
  · exact hwf.getMemByAddr_eq addr
  · exact ⟨m.tlb, rfl⟩

theorem Wf.crosses (hcrossing : m.crossing (if 1 < size then m.searchMaps addr else none) addr
      (addr + (size - 1)) size = some (mem, nextKey, next)) :
    ∃ key, Crosses m addr size key mem nextKey next := by
  simp only [crossing, bind_eq_bind, bind_eq_some_iff, Prod.exists,
    ite_none_right_eq_some, map_eq_some_iff, Prod.mk.injEq] at hcrossing
  obtain ⟨key, mem, ⟨-, hfound⟩, hcond, key', next', hnext, rfl, rfl, rfl⟩ := hcrossing
  rw [Bool.and_eq_true, Bool.not_eq_true', ← Bool.not_eq_true] at hcond
  obtain ⟨hstop, hwritable⟩ := hcond
  obtain ⟨hget, hinside⟩ := hwf.searchMaps_eq_some.mp hfound
  obtain ⟨hbase, hnextGet, hnextWrite, hnextInside⟩ := hwf.nextMem_eq_some hnext
  rw [inside_eq_true] at hstop hinside hnextInside
  refine ⟨key, hfound, hwritable, by omega, hnextGet, hbase, hnextWrite, by omega, ?_⟩
  rintro rfl
  obtain rfl := Option.some.inj (hget.symm.trans hnextGet)
  omega

/-- A scalar write is refused at the end of the address space; otherwise, after a lookup that only
moves the buffer, it runs into the next region or stays in one. -/
theorem Wf.writeScalar_cases {value : Nat}
    (hwrite : m.writeScalar size addr value = some (ok, m')) : (ok = false ∧ m' = m) ∨ ∃ tlb : Tlb,
      (∃ key mem nextKey next,
        Crosses { m with tlb := tlb } addr (leBytes size value).length key mem nextKey next ∧
        { m with tlb := tlb }.writeAcross addr (leBytes size value) mem nextKey next =
          some (ok, m')) ∨
      ∃ out, { m with tlb := tlb }.bulkWrite addr (addr + (size - 1)) (leBytes size value) =
        some (out, m') ∧ ok = (out == .done) := by
  simp only [Maps.writeScalar] at hwrite
  split at hwrite
  · cases hwrite
    exact .inl ⟨rfl, rfl⟩
  right
  obtain ⟨tlb, hlookup⟩ := hwf.lookup size addr
  rw [hlookup] at hwrite
  simp only at hwrite
  refine ⟨tlb, ?_⟩
  split at hwrite
  · next mem nextKey next hcrossing =>
    have hwf₁ : Wf { m with tlb := tlb } := hwf.congr rfl rfl rfl
    obtain ⟨key, hcross⟩ := hwf₁.crosses hcrossing
    exact .inl ⟨key, mem, nextKey, next, (length_leBytes size value).symm ▸ hcross, hwrite⟩
  · rw [map_eq_some_iff] at hwrite
    obtain ⟨⟨out, m₁⟩, hbulk, heq⟩ := hwrite
    obtain ⟨rfl, rfl⟩ := Prod.mk.inj heq
    exact .inr ⟨out, hbulk, rfl⟩

theorem Wf.writeScalar {value : Nat}
    (hwrite : m.writeScalar size addr value = some (ok, m')) : m'.Wf ∧ Logged m m' := by
  rcases hwf.writeScalar_cases hwrite with ⟨-, rfl⟩ | ⟨tlb, hcases⟩
  · exact ⟨hwf, Logged.refl _⟩
  have hwf₁ : Wf { m with tlb := tlb } := hwf.congr rfl rfl rfl
  have hsame : Logged m { m with tlb := tlb } := Logged.of_eq rfl rfl rfl
  rcases hcases with ⟨key, mem, nextKey, next, hcross, hacross⟩ | ⟨out, hbulk, -⟩
  · obtain ⟨hwf', hlogged⟩ := hwf₁.writeAcross hcross hacross
    exact ⟨hwf', hsame.trans hlogged⟩
  · obtain ⟨hwf', hlogged⟩ := hwf₁.bulkWrite hbulk
    exact ⟨hwf', hsame.trans hlogged⟩

theorem Wf.writeEach {bytes : List (Nat × UInt8)}
    (hwrite : m.writeEach bytes = some (ok, m')) : m'.Wf ∧ Logged m m' := by
  induction bytes generalizing m with
  | nil =>
    cases hwrite
    exact ⟨hwf, Logged.refl _⟩
  | cons byte bytes ih =>
    simp only [Maps.writeEach, bind_eq_some_iff] at hwrite
    obtain ⟨⟨ok₁, m₁⟩, hbyte, hwrite⟩ := hwrite
    obtain ⟨hwf₁, hlogged₁⟩ := hwf.writeScalar hbyte
    simp only at hwrite
    split at hwrite
    · obtain ⟨hwf', hlogged⟩ := ih hwf₁ hwrite
      exact ⟨hwf', hlogged₁.trans hlogged⟩
    · cases hwrite
      exact ⟨hwf₁, hlogged₁⟩

theorem Wf.writeBytes {data : List UInt8}
    (hwrite : m.writeBytes addr data = some (ok, m')) : m'.Wf ∧ Logged m m' := by
  rw [Maps.writeBytes] at hwrite
  split at hwrite
  · cases hwrite
    exact ⟨hwf, Logged.refl m⟩
  split at hwrite
  · cases hwrite
    exact ⟨hwf, Logged.refl m⟩
  rw [bind_eq_some_iff] at hwrite
  obtain ⟨⟨out, m₁⟩, hbulk, hwrite⟩ := hwrite
  obtain ⟨hwf₁, hlogged₁⟩ := hwf.bulkWrite hbulk
  cases out with
  | done =>
    cases hwrite
    exact ⟨hwf₁, hlogged₁⟩
  | unmapped =>
    cases hwrite
    exact ⟨hwf₁, hlogged₁⟩
  | refused =>
    obtain ⟨hwf', hlogged⟩ := hwf₁.writeEach hwrite
    exact ⟨hwf', hlogged₁.trans hlogged⟩

theorem Wf.memset {amount : Nat} {b : UInt8}
    (hwrite : m.memset addr b amount = some m') : m'.Wf ∧ Logged m m' := by
  rw [Maps.memset] at hwrite
  split at hwrite
  · cases hwrite
    exact ⟨hwf, Logged.refl m⟩
  rw [bind_eq_some_iff] at hwrite
  obtain ⟨⟨out, m₁⟩, hbulk, hwrite⟩ := hwrite
  obtain ⟨hwf₁, hlogged₁⟩ := hwf.bulkWrite hbulk
  simp only at hwrite
  split at hwrite
  · cases hwrite
    exact ⟨hwf₁, hlogged₁⟩
  · rw [map_eq_some_iff] at hwrite
    obtain ⟨⟨ok, m₂⟩, heach, rfl⟩ := hwrite
    obtain ⟨hwf', hlogged⟩ := hwf₁.writeEach heach
    exact ⟨hwf', hlogged₁.trans hlogged⟩

omit hwf in
theorem tryReadBytes_snd (m : Maps) (addr sz : Nat) :
    ∃ tlb, (m.tryReadBytes addr sz).2 = { m with tlb := tlb } := by
  obtain ⟨tlb, htlb⟩ := m.getMemByAddr_snd addr
  rw [tryReadBytes]
  split
  · exact ⟨m.tlb, rfl⟩
  generalize m.getMemByAddr addr = out at htlb
  obtain ⟨found, m₁⟩ := out
  obtain rfl := htlb
  refine ⟨tlb, ?_⟩
  cases found with
  | none => rfl
  | some found =>
    simp only
    split <;> rfl

theorem Wf.memcpy {dst src : Nat} (hwrite : m.memcpy dst src size = some (ok, m')) :
    m'.Wf ∧ Logged m m' := by
  obtain ⟨tlb, htlb⟩ := m.tryReadBytes_snd src size
  rw [Maps.memcpy] at hwrite
  generalize m.tryReadBytes src size = out at htlb hwrite
  obtain ⟨bytes, m₁⟩ := out
  obtain rfl := htlb
  have hwf₁ : Wf { m with tlb := tlb } := hwf.congr rfl rfl rfl
  have hsame : Logged m { m with tlb := tlb } := Logged.of_eq rfl rfl rfl
  cases bytes with
  | none =>
    cases hwrite
    exact ⟨hwf₁, hsame⟩
  | some bytes =>
    simp only [map_eq_some_iff] at hwrite
    obtain ⟨⟨ok', m₂⟩, hbytes, heq⟩ := hwrite
    obtain ⟨-, rfl⟩ := Prod.mk.inj heq
    obtain ⟨hwf', hlogged⟩ := hwf₁.writeBytes hbytes
    exact ⟨hwf', hsame.trans hlogged⟩

end

end Maps

end Mwemu
