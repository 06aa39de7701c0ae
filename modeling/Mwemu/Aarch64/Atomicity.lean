import Mwemu.Aarch64.Exclusive

/-!
# What the exclusive monitor guarantees

A thread's reservation is its pending exclusive load with its kind, one word or a pair, forgotten.
So a store-exclusive of the same kind as the pending load is a compare-and-swap against what that
load returned, whatever the other threads did in between, and increments made this way are never
lost. A store of the other kind can succeed too, on a word that was never loaded.
-/

namespace Mwemu.Aarch64

open Mwemu.Lib Mwemu.Arch Mwemu.Maps List Option BitVec Function

variable {n : Nat}

/-! ### What a step leaves alone -/

def Keeps (ranges : List (Nat × Nat)) (m m' : Maps) : Prop :=
  ∀ size addr v, 0 < size →
    (∀ range ∈ ranges, range.1 + range.2 ≤ addr ∨ addr + size ≤ range.1) →
    m.peek size addr = some v → m'.peek size addr = some v

theorem Keeps.trans {ranges : List (Nat × Nat)} {m m' m'' : Maps} (h₁ : Keeps ranges m m')
    (h₂ : Keeps ranges m' m'') : Keeps ranges m m'' :=
  fun size addr v hsize hapart hpeek =>
    h₂ size addr v hsize hapart (h₁ size addr v hsize hapart hpeek)

theorem keeps_of_stores {ranges : List (Nat × Nat)} {m m' : Maps} {addr : Nat} {bs : List UInt8}
    (hwf : m.Wf) (hstores : Stores m m' addr bs) (hrange : bs = [] ∨ (addr, bs.length) ∈ ranges) :
    Keeps ranges m m' := by
  intro size a v hsize hapart hpeek
  rcases hrange with rfl | hmem
  · exact (hstores.unchanged (a + size)).peek_apart hwf hsize (.inr (Nat.le_refl _)) hpeek
  · exact hstores.peek_apart hwf hsize (hapart _ hmem) hpeek

namespace Machine

/-- Memory changes in the ranges only, and no reservation changes. -/
structure Effect (ranges : List (Nat × Nat)) (s s' : Machine n) : Prop where
  keeps : Keeps ranges s.maps s'.maps
  exclusive : ∀ t, (s'.threads t).exclusive = (s.threads t).exclusive

variable {ranges : List (Nat × Nat)} {s s' s'' : Machine n} {t : Fin n}

theorem Effect.refl (s : Machine n) : Effect ranges s s :=
  ⟨fun _ _ _ _ _ hpeek => hpeek, fun _ => rfl⟩

theorem Effect.trans (h₁ : Effect ranges s s') (h₂ : Effect ranges s' s'') : Effect ranges s s'' :=
  ⟨h₁.keeps.trans h₂.keeps, fun t => (h₂.exclusive t).trans (h₁.exclusive t)⟩

theorem setRegs_exclusive (s : Machine n) (t t' : Fin n) (regs : RegsAarch64) :
    ((s.setRegs t regs).threads t').exclusive = (s.threads t').exclusive := by
  simp only [setRegs]
  by_cases ht : t' = t
  · rw [ht, update_self]
  · rw [update_of_ne ht]

theorem setExclusive_exclusive (s : Machine n) (t t' : Fin n) (exclusive : Option Reservation) :
    ((s.setExclusive t exclusive).threads t').exclusive =
      if t = t' then exclusive else (s.threads t').exclusive := by
  simp only [setExclusive]
  by_cases ht : t = t'
  · rw [ht, update_self, if_pos rfl]
  · rw [update_of_ne (Ne.symm ht), if_neg ht]

theorem effect_setRegs (s : Machine n) (t : Fin n) (regs : RegsAarch64) :
    Effect ranges s (s.setRegs t regs) :=
  ⟨fun _ _ _ _ _ hpeek => hpeek, fun t' => setRegs_exclusive s t t' regs⟩

theorem effect_writeReg (s : Machine n) (t : Fin n) (op : Reg) (val : BitVec 64) :
    Effect ranges s (s.writeReg t op val) :=
  effect_setRegs s t _

def word (s : Machine n) (addr : BitVec 64) (bytes : Width) : Option (BitVec 64) :=
  (s.readMem addr bytes).1

theorem word_eq (s : Machine n) (addr : BitVec 64) (bytes : Width) :
    s.word addr bytes = (s.maps.peek bytes.bytes addr.toNat).map (BitVec.ofNat 64) :=
  congrArg (Option.map (BitVec.ofNat 64)) (s.wf.readScalar_fst _ _)

theorem stores_readMem (s : Machine n) (addr : BitVec 64) (bytes : Width) :
    Stores s.maps (s.readMem addr bytes).2.maps 0 [] :=
  s.wf.readScalar_stores _ _

theorem effect_readMem (s : Machine n) (addr : BitVec 64) (bytes : Width) :
    Effect ranges s (s.readMem addr bytes).2 :=
  ⟨keeps_of_stores s.wf (s.stores_readMem addr bytes) (.inl rfl), fun _ => rfl⟩

variable {addr val : BitVec 64} {bytes : Width} {ok : Bool}

theorem writeScalar_spec (hwrite : s.writeScalar addr bytes val = some (ok, s')) :
    s'.threads = s.threads ∧ Stores s.maps s'.maps addr.toNat
      (if ok then leBytes bytes.bytes val.toNat else []) := by
  rw [writeScalar] at hwrite
  split at hwrite
  · next ok' maps hmaps =>
    cases hwrite
    exact ⟨rfl, s.wf.writeScalar_stores (bytes_pos bytes) hmaps⟩
  · cases hwrite

theorem writeMem_spec (hwrite : s.writeMem addr bytes val = some s') :
    s'.threads = s.threads ∧ Stores s.maps s'.maps addr.toNat (leBytes bytes.bytes val.toNat) := by
  rw [writeMem] at hwrite
  split at hwrite
  · next s₁ hscalar =>
    obtain rfl := Option.some.inj hwrite
    exact writeScalar_spec hscalar
  · cases hwrite

theorem effect_writeScalar (hwrite : s.writeScalar addr bytes val = some (ok, s'))
    (hrange : (addr.toNat, bytes.bytes) ∈ ranges) : Effect ranges s s' := by
  obtain ⟨hthreads, hstores⟩ := writeScalar_spec hwrite
  refine ⟨keeps_of_stores s.wf hstores ?_, fun t => by rw [hthreads]⟩
  cases ok with
  | false => exact .inl rfl
  | true => exact .inr (by rwa [if_pos rfl, length_leBytes])

theorem effect_writeMem (hwrite : s.writeMem addr bytes val = some s')
    (hrange : (addr.toNat, bytes.bytes) ∈ ranges) : Effect ranges s s' := by
  obtain ⟨hthreads, hstores⟩ := writeMem_spec hwrite
  exact ⟨keeps_of_stores s.wf hstores (.inr (by rwa [length_leBytes])), fun t => by rw [hthreads]⟩

/-! ### The reservation -/

theorem word_of_stores {a : Nat} (hstores : Stores s.maps s'.maps a []) (addr : BitVec 64)
    (bytes : Width) : s'.word addr bytes = s.word addr bytes := by
  have hpeek : s'.maps.peek bytes.bytes addr.toNat = s.maps.peek bytes.bytes addr.toNat := by
    refine Option.ext fun v => ⟨fun h => ?_, fun h => ?_⟩
    · exact keeps_of_stores s'.wf (hstores.symm s.wf) (.inl rfl) _ _ _
        (bytes_pos bytes) (forall_mem_nil _) h
    · exact keeps_of_stores s.wf hstores (.inl rfl) _ _ _
        (bytes_pos bytes) (forall_mem_nil _) h
  rw [word_eq, word_eq, hpeek]

def Holds (s : Machine n) (access : Access) : Prop :=
  s.word access.addr access.bytes = some access.values.1 ∧
    (access.pair = true →
      s.word (nextWord access.addr access.bytes) access.bytes = some access.values.2)

/-- The test consumes the reservation; it succeeds only if the reservation is for the address and
width and memory holds its values. -/
theorem reservationHolds_spec {pair : Bool}
    (hholds : s.reservationHolds t addr bytes pair = (ok, s')) : Stores s.maps s'.maps 0 [] ∧
      (∀ t', (s'.threads t').exclusive = if t = t' then none else (s.threads t').exclusive) ∧
      (ok = true → ∃ values, (s.threads t).exclusive = some ⟨addr, bytes, values⟩ ∧
        s.Holds ⟨pair, addr, bytes, values⟩) := by
  rw [reservationHolds] at hholds
  cases hres : (s.threads t).exclusive with
  | none =>
    rw [hres] at hholds
    cases hholds
    refine ⟨s.wf.stores_of_eq _ rfl rfl rfl 0, fun t' => ?_, fun hok => nomatch hok⟩
    split
    · next ht => rw [← ht, hres]
    · rfl
  | some r =>
    simp only [hres] at hholds
    have hcleared : Stores s.maps (s.setExclusive t none).maps 0 [] :=
      s.wf.stores_of_eq _ rfl rfl rfl 0
    have hexclusive := fun t' => s.setExclusive_exclusive t t' none
    split at hholds
    · cases hholds
      exact ⟨hcleared, hexclusive, fun hok => nomatch hok⟩
    · next hmatch =>
      push Not at hmatch
      obtain ⟨rfl, rfl⟩ := hmatch
      have hread := stores_readMem (s.setExclusive t none) r.addr r.bytes
      cases pair with
      | false =>
        cases hholds
        refine ⟨hcleared.after hread, hexclusive, fun hok => ⟨r.values, rfl, ?_, nofun⟩⟩
        exact eq_of_beq hok
      | true =>
        cases hholds
        have hread' := stores_readMem ((s.setExclusive t none).readMem r.addr r.bytes).2
          (nextWord r.addr r.bytes) r.bytes
        refine ⟨(hcleared.after hread).after hread', hexclusive, fun hok => ⟨r.values, rfl, ?_⟩⟩
        rw [Bool.and_eq_true] at hok
        refine ⟨eq_of_beq hok.1, fun _ => ?_⟩
        rw [← word_of_stores (hcleared.after hread)]
        exact eq_of_beq hok.2

/-! ### Store-exclusives -/

/-- The words of the access are written, one after the other. -/
def Written (m m' : Maps) (access : Access) : Prop :=
  ∃ m₁, Stores m m₁ access.addr.toNat (leBytes access.bytes.bytes access.values.1.toNat) ∧
    if access.pair then
      Stores m₁ m' (nextWord access.addr access.bytes).toNat
        (leBytes access.bytes.bytes access.values.2.toNat)
    else m' = m₁

/-- A store-exclusive consumes the reservation. It fails and changes nothing, or memory held the
values of a reservation for the same address and width and gets the new ones. -/
structure StoresExclusive (s s' : Machine n) (t : Fin n) (access : Access) (status : BitVec 64) :
    Prop where
  exclusive : ∀ t', (s'.threads t').exclusive = if t = t' then none else (s.threads t').exclusive
  outcome : (status = 1 ∧ Stores s.maps s'.maps 0 []) ∨
    (status = 0 ∧ (∃ values, (s.threads t).exclusive = some ⟨access.addr, access.bytes, values⟩ ∧
      s.Holds ⟨access.pair, access.addr, access.bytes, values⟩) ∧ Written s.maps s'.maps access)

variable {rt : Reg} {mem : MemOperand} {status : BitVec 64}

theorem store_spec {bytes : Option Width} {ws : Reg}
    (hstore : s.store t bytes ws rt mem = some (status, s')) : StoresExclusive s s' t
      ⟨false, s.resolveMemAddr t mem, bytes.getD rt.bytes, (s.readReg t rt, 0)⟩ status := by
  simp only [store] at hstore
  split at hstore
  · next s₁ hholds =>
    obtain ⟨hstores, hexclusive, -⟩ := reservationHolds_spec hholds
    cases hstore
    exact ⟨fun t' => (setRegs_exclusive _ _ _ _).trans (hexclusive t'), .inl ⟨rfl, hstores⟩⟩
  · next s₁ hholds =>
    obtain ⟨hstores, hexclusive, hres⟩ := reservationHolds_spec hholds
    rw [map_eq_some_iff] at hstore
    obtain ⟨s₂, hwrite, heq⟩ := hstore
    cases heq
    obtain ⟨hthreads, hstores'⟩ := writeMem_spec hwrite
    refine ⟨fun t' => ?_, .inr ⟨rfl, hres rfl, s₂.maps, hstores.after hstores', rfl⟩⟩
    exact (setRegs_exclusive _ _ _ _).trans (by rw [hthreads, hexclusive])

theorem storePair_spec {ws rt2 : Reg} (hstore : s.storePair t ws rt rt2 mem = some (status, s')) :
    StoresExclusive s s' t
      ⟨true, s.resolveMemAddr t mem, rt.bytes, (s.readReg t rt, s.readReg t rt2)⟩ status := by
  simp only [storePair, bind_eq_bind] at hstore
  split at hstore
  · next s₁ hholds =>
    obtain ⟨hstores, hexclusive, -⟩ := reservationHolds_spec hholds
    cases hstore
    exact ⟨fun t' => (setRegs_exclusive _ _ _ _).trans (hexclusive t'), .inl ⟨rfl, hstores⟩⟩
  · next s₁ hholds =>
    obtain ⟨hstores, hexclusive, hres⟩ := reservationHolds_spec hholds
    simp only [bind_eq_some_iff] at hstore
    obtain ⟨s₂, hfirst, s₃, hsecond, heq⟩ := hstore
    cases heq
    obtain ⟨hthreads, hstores'⟩ := writeMem_spec hfirst
    obtain ⟨hthreads', hstores''⟩ := writeMem_spec hsecond
    refine ⟨fun t' => ?_, .inr ⟨rfl, hres rfl, s₂.maps, hstores.after hstores', hstores''⟩⟩
    exact (setRegs_exclusive _ _ _ _).trans (by rw [hthreads', hthreads, hexclusive])

def lowBytes (bytes : Width) (v : BitVec 64) : BitVec 64 :=
  BitVec.ofNat 64 (v.toNat % 2 ^ bytes.bits)

def stored (access : Access) : Access :=
  { access with values := (lowBytes access.bytes access.values.1,
      lowBytes access.bytes access.values.2) }

theorem nextWord_apart (addr : BitVec 64) (bytes : Width) :
    (nextWord addr bytes).toNat + bytes.bytes ≤ addr.toNat ∨
      addr.toNat + bytes.bytes ≤ (nextWord addr bytes).toNat := by
  have haddr := addr.isLt
  have hbytes : bytes.bytes ≤ 8 := by cases bytes <;> decide
  rw [nextWord, toNat_add, toNat_ofNat]
  omega

variable {v : BitVec 64}

theorem word_of_peek
    (hpeek : s.maps.peek bytes.bytes addr.toNat = some (v.toNat % 256 ^ bytes.bytes)) :
    s.word addr bytes = some (lowBytes bytes v) := by
  rw [word_eq, hpeek, map_some, lowBytes, two_pow_bits]

theorem peek_isSome_of_word (hword : s.word addr bytes = some v) :
    (s.maps.peek bytes.bytes addr.toNat).isSome = true := by
  rw [word_eq] at hword
  rw [← isSome_map, hword, isSome_some]

theorem word_lt (hword : s.word addr bytes = some v) : v.toNat < 2 ^ bytes.bits := by
  rw [word_eq, map_eq_some_iff] at hword
  obtain ⟨value, hpeek, rfl⟩ := hword
  have hlt := leValue_lt (s.maps.bytesAt addr.toNat bytes.bytes)
  rw [length_bytesAt, ← s.wf.peek_eq_bytesAt (bytes_pos bytes) hpeek] at hlt
  rw [toNat_ofNat, two_pow_bits]
  exact Nat.lt_of_le_of_lt (Nat.mod_le _ _) hlt

theorem Written.holds {access : Access} {values : BitVec 64 × BitVec 64}
    (hwritten : Written s.maps s'.maps access)
    (hholds : s.Holds ⟨access.pair, access.addr, access.bytes, values⟩) :
    s'.Holds (stored access) := by
  obtain ⟨m₁, hfirst, hrest⟩ := hwritten
  have hpos := bytes_pos access.bytes
  have hpeek := hfirst.peek_self hpos (peek_isSome_of_word hholds.1)
  cases hpair : access.pair with
  | false =>
    rw [hpair, if_neg Bool.false_ne_true] at hrest
    refine ⟨word_of_peek (hrest ▸ hpeek), fun h => ?_⟩
    rw [show (stored access).pair = access.pair from rfl, hpair] at h
    cases h
  | true =>
    rw [hpair, if_pos rfl] at hrest
    have hsecond := hfirst.peek_isSome (peek_isSome_of_word (hholds.2 hpair))
    refine ⟨word_of_peek (hrest.peek_apart hfirst.wf hpos ?_ hpeek),
      fun _ => word_of_peek (hrest.peek_self hpos hsecond)⟩
    rw [length_leBytes]
    exact nextWord_apart access.addr access.bytes

/-! ### Every instruction -/

def footprint (s : Machine n) (t : Fin n) : Ins → List (BitVec 64 × Width)
  | .store bytes _ rt mem | .storeRelease bytes rt mem =>
    [(s.resolveMemAddr t mem, bytes.getD rt.bytes)]
  | .storePair _ rt _ mem | .casp rt _ mem =>
    [(s.resolveMemAddr t mem, rt.bytes), (nextWord (s.resolveMemAddr t mem) rt.bytes, rt.bytes)]
  | .plainStore writes => writes.map fun write => (write.1, write.2.1)
  | .rmw _ bytes rs _ mem | .cas bytes rs _ mem =>
    [(s.resolveMemAddr t mem, bytes.getD rs.bytes)]
  | .load .. | .loadPair .. | .clrex | .compute _ => []

def rangesOf (words : List (BitVec 64 × Width)) : List (Nat × Nat) :=
  words.map fun word => (word.1.toNat, word.2.bytes)

theorem load_spec {op : LoadOp} {bytes : Option Width}
    (hload : s.load t op bytes rt mem = some (val, s')) :
    ∃ s₁, Effect [] s s₁ ∧ s' = if op.isExclusiveLoad then
      s₁.setExclusive t (some ⟨s.resolveMemAddr t mem, bytes.getD rt.bytes, (val, 0)⟩) else s₁ := by
  have hread : Effect [] s _ := effect_readMem s (s.resolveMemAddr t mem) (bytes.getD rt.bytes)
  simp only [load] at hload
  split at hload
  · cases hload
  · next s₁ hs₁ =>
    cases hload
    rw [hs₁] at hread
    exact ⟨_, hread.trans (effect_writeReg s₁ t rt val), rfl⟩

theorem loadPair_spec {rt2 : Reg} {vals : BitVec 64 × BitVec 64}
    (hload : s.loadPair t rt rt2 mem = some (vals, s')) : ∃ s₁, Effect [] s s₁ ∧
      s' = s₁.setExclusive t (some ⟨s.resolveMemAddr t mem, rt.bytes, vals⟩) := by
  have hread : Effect [] s _ := effect_readMem s (s.resolveMemAddr t mem) rt.bytes
  have hread' : Effect [] _ _ := effect_readMem (s.readMem (s.resolveMemAddr t mem) rt.bytes).2
    (nextWord (s.resolveMemAddr t mem) rt.bytes) rt.bytes
  simp only [loadPair] at hload
  split at hload
  · next v1 v2 s₂ hfirst hs₂ =>
    cases hload
    rw [hs₂] at hread'
    exact ⟨_, ((hread.trans hread').trans (effect_writeReg s₂ t rt v1)).trans
      (effect_writeReg _ t rt2 v2), rfl⟩
  · cases hload

theorem effect_plainStore {writes : List (BitVec 64 × Width × BitVec 64)}
    (hstore : s.plainStore writes = some s')
    (hranges : ∀ write ∈ writes, (write.1.toNat, write.2.1.bytes) ∈ ranges) :
    Effect ranges s s' := by
  induction writes generalizing s with
  | nil =>
    cases hstore
    exact .refl _
  | cons write writes ih =>
    obtain ⟨addr, bytes, val⟩ := write
    rw [plainStore, bind_eq_some_iff] at hstore
    obtain ⟨⟨ok, s₁⟩, hwrite, hrest⟩ := hstore
    obtain ⟨hhead, htail⟩ := forall_mem_cons.mp hranges
    exact (effect_writeScalar hwrite hhead).trans (ih hrest htail)

variable {rs : Reg}

theorem effect_rmw {op : RmwOp} {bytes : Option Width} (hrmw : s.rmw t op bytes rs rt mem = some s')
    (hrange : ((s.resolveMemAddr t mem).toNat, (bytes.getD rs.bytes).bytes) ∈ ranges) :
    Effect ranges s s' := by
  have hread : Effect ranges s _ := effect_readMem s (s.resolveMemAddr t mem) (bytes.getD rs.bytes)
  simp only [rmw] at hrmw
  split at hrmw
  · cases hrmw
  · next old s₁ hs₁ =>
    rw [hs₁] at hread
    rw [map_eq_some_iff] at hrmw
    obtain ⟨s₂, hwrite, rfl⟩ := hrmw
    exact (hread.trans (effect_writeMem hwrite hrange)).trans (effect_writeReg s₂ t rt old)

theorem effect_cas {bytes : Option Width} (hcas : s.cas t bytes rs rt mem = some s')
    (hrange : ((s.resolveMemAddr t mem).toNat, (bytes.getD rs.bytes).bytes) ∈ ranges) :
    Effect ranges s s' := by
  have hread : Effect ranges s _ := effect_readMem s (s.resolveMemAddr t mem) (bytes.getD rs.bytes)
  simp only [cas] at hcas
  split at hcas
  · cases hcas
  · next old s₁ hs₁ =>
    rw [hs₁] at hread
    rw [map_eq_some_iff] at hcas
    obtain ⟨s₂, hswap, rfl⟩ := hcas
    refine (hread.trans ?_).trans (effect_writeReg s₂ t rs old)
    split at hswap
    · exact effect_writeMem hswap hrange
    · obtain rfl := Option.some.inj hswap
      exact .refl _

theorem effect_casp (hcasp : s.casp t rs rt mem = some s')
    (hrange : ((s.resolveMemAddr t mem).toNat, rs.bytes.bytes) ∈ ranges)
    (hrange' : ((nextWord (s.resolveMemAddr t mem) rs.bytes).toNat, rs.bytes.bytes) ∈ ranges) :
    Effect ranges s s' := by
  have hread : Effect ranges s _ := effect_readMem s (s.resolveMemAddr t mem) rs.bytes
  have hread' : Effect ranges _ _ := effect_readMem (s.readMem (s.resolveMemAddr t mem) rs.bytes).2
    (nextWord (s.resolveMemAddr t mem) rs.bytes) rs.bytes
  simp only [casp] at hcasp
  split at hcasp
  · next old0 old1 s₂ hfirst hs₂ =>
    rw [hs₂] at hread'
    rw [map_eq_some_iff] at hcasp
    obtain ⟨s₃, hswap, rfl⟩ := hcasp
    refine ((hread.trans hread').trans ?_).trans
      ((effect_writeReg s₃ t _ old0).trans (effect_writeReg _ t _ old1))
    split at hswap
    · rw [bind_eq_some_iff] at hswap
      obtain ⟨s₄, hwrite, hwrite'⟩ := hswap
      exact (effect_writeMem hwrite hrange).trans (effect_writeMem hwrite' hrange')
    · obtain rfl := Option.some.inj hswap
      exact .refl _
  · cases hcasp

theorem StoresExclusive.keeps {access : Access} (hstores : StoresExclusive s s' t access status)
    (hrange : (access.addr.toNat, access.bytes.bytes) ∈ ranges) (hrange' : access.pair = true →
      ((nextWord access.addr access.bytes).toNat, access.bytes.bytes) ∈ ranges) :
    Keeps ranges s.maps s'.maps := by
  rcases hstores.outcome with ⟨-, hsame⟩ | ⟨-, -, m₁, hfirst, hrest⟩
  · exact keeps_of_stores s.wf hsame (.inl rfl)
  have hkeeps := keeps_of_stores s.wf hfirst (.inr (by rwa [length_leBytes]))
  cases hpair : access.pair with
  | false =>
    rw [hpair, if_neg Bool.false_ne_true] at hrest
    rwa [hrest]
  | true =>
    rw [hpair, if_pos rfl] at hrest
    exact hkeeps.trans
      (keeps_of_stores hfirst.wf hrest (.inr (by rw [length_leBytes]; exact hrange' hpair)))

end Machine

/-! ### Runs -/

/-- The reservation an exclusive load leaves; it does not say whether the load was of a pair. -/
def Access.reservation (access : Access) : Reservation :=
  ⟨access.addr, access.bytes, access.values⟩

/-- An instruction changes memory in its footprint, and the reservations as its event says. -/
structure Executes (s s' : Machine n) (t : Fin n) (ins : Ins) (e : Event n) : Prop where
  keeps : Keeps (Machine.rangesOf (s.footprint t ins)) s.maps s'.maps
  exclusive : ∀ t' access, (s.threads t').exclusive = Option.map Access.reservation access →
    (s'.threads t').exclusive = (e.track t' access).map Access.reservation
  stored : ∀ t' access status, e = .exclusiveStore t' access status →
    (access.addr, access.bytes) ∈ s.footprint t ins

variable {ins : Ins}

theorem executes_of_effect {s s' : Machine n} {t : Fin n}
    (heffect : Machine.Effect (Machine.rangesOf (s.footprint t ins)) s s') :
    Executes s s' t ins .other :=
  ⟨heffect.keeps, fun t' _ hpending => (heffect.exclusive t').trans hpending, nofun⟩

theorem executes_load {s s₁ : Machine n} {t : Fin n} (access : Access)
    (heffect : Machine.Effect [] s s₁) (hfootprint : s.footprint t ins = []) :
    Executes s (s₁.setExclusive t (some access.reservation)) t ins (.exclusiveLoad t access) := by
  refine ⟨by rw [hfootprint]; exact heffect.keeps, fun t' pending hpending => ?_, nofun⟩
  rw [Machine.setExclusive_exclusive, Event.track]
  split
  · rfl
  · exact (heffect.exclusive t').trans hpending

variable {access : Access} {status : BitVec 64}

theorem executes_store {s s' : Machine n} {t : Fin n}
    (hstores : Machine.StoresExclusive s s' t access status)
    (hfootprint : s.footprint t ins = (access.addr, access.bytes) ::
      if access.pair then [(nextWord access.addr access.bytes, access.bytes)] else []) :
    Executes s s' t ins (.exclusiveStore t access status) := by
  refine ⟨hstores.keeps ?_ fun hpair => ?_, fun t' pending hpending => ?_, ?_⟩
  · simp [Machine.rangesOf, hfootprint]
  · simp [Machine.rangesOf, hfootprint, hpair]
  · rw [hstores.exclusive, Event.track]
    split
    · rfl
    · exact hpending
  · rintro _ _ _ ⟨⟩
    rw [hfootprint]
    exact mem_cons_self

theorem executes_other {s s' : Machine n} {t : Fin n} {e : Event n} {out : Option (Machine n)}
    (heffect : ∀ s', out = some s' → Machine.Effect (Machine.rangesOf (s.footprint t ins)) s s')
    (hexec : out.map (Event.other, ·) = some (e, s')) : Executes s s' t ins e := by
  obtain ⟨s', hout, heq⟩ := map_eq_some_iff.mp hexec
  obtain ⟨rfl, rfl⟩ := Prod.mk.inj heq
  exact executes_of_effect (heffect s' hout)

theorem executes_of_execute {s s' : Machine n} {t : Fin n} {e : Event n}
    (hexec : s.execute t ins = some (e, s')) : Executes s s' t ins e := by
  cases ins with
  | compute regs =>
    cases hexec
    exact executes_of_effect (s.effect_setRegs t regs)
  | clrex =>
    cases hexec
    refine ⟨fun _ _ _ _ _ hpeek => hpeek, fun t' pending hpending => ?_, nofun⟩
    rw [Machine.setExclusive_exclusive, Event.track]
    split
    · rfl
    · exact hpending
  | load op bytes rt mem =>
    rw [Machine.execute, map_eq_some_iff] at hexec
    obtain ⟨⟨val, s₂⟩, hload, heq⟩ := hexec
    obtain ⟨rfl, rfl⟩ := Prod.mk.inj heq
    obtain ⟨s₁, heffect, rfl⟩ := Machine.load_spec hload
    cases op.isExclusiveLoad with
    | true => exact executes_load ⟨false, _, _, (val, 0)⟩ heffect rfl
    | false => exact executes_of_effect heffect
  | loadPair rt rt2 mem =>
    rw [Machine.execute, map_eq_some_iff] at hexec
    obtain ⟨⟨vals, s₂⟩, hload, heq⟩ := hexec
    obtain ⟨rfl, rfl⟩ := Prod.mk.inj heq
    obtain ⟨s₁, heffect, rfl⟩ := Machine.loadPair_spec hload
    exact executes_load ⟨true, _, _, vals⟩ heffect rfl
  | store bytes ws rt mem =>
    rw [Machine.execute, map_eq_some_iff] at hexec
    obtain ⟨⟨status, s₂⟩, hstore, heq⟩ := hexec
    obtain ⟨rfl, rfl⟩ := Prod.mk.inj heq
    exact executes_store (Machine.store_spec hstore) rfl
  | storePair ws rt rt2 mem =>
    rw [Machine.execute, map_eq_some_iff] at hexec
    obtain ⟨⟨status, s₂⟩, hstore, heq⟩ := hexec
    obtain ⟨rfl, rfl⟩ := Prod.mk.inj heq
    exact executes_store (Machine.storePair_spec hstore) rfl
  | storeRelease bytes rt mem =>
    exact executes_other (fun _ hstore => Machine.effect_writeMem hstore mem_cons_self) hexec
  | plainStore writes =>
    refine executes_other (fun _ hstore => Machine.effect_plainStore hstore fun write hwrite => ?_)
      hexec
    exact mem_map.mpr ⟨_, mem_map.mpr ⟨write, hwrite, rfl⟩, rfl⟩
  | rmw op bytes rs rt mem =>
    exact executes_other (fun _ hrmw => Machine.effect_rmw hrmw mem_cons_self) hexec
  | cas bytes rs rt mem =>
    exact executes_other (fun _ hcas => Machine.effect_cas hcas mem_cons_self) hexec
  | casp rs rt mem =>
    exact executes_other (fun _ hcasp => Machine.effect_casp hcasp mem_cons_self
      (mem_cons_of_mem _ mem_cons_self)) hexec

namespace Trace

/-- Every reservation is the pending exclusive load of its thread. -/
def Tracked (s : Trace n) : Prop :=
  ∀ t, (s.machine.threads t).exclusive = (pending t s.log).map Access.reservation

variable {op : Fin n × Ins}

theorem step_eq_some {s s' : Trace n} (hstep : s.step op = some s') :
    ∃ e, s.machine.execute op.1 op.2 = some (e, s'.machine) ∧ s'.log = s.log ++ [e] := by
  rw [step, map_eq_some_iff] at hstep
  obtain ⟨⟨e, machine⟩, hexec, rfl⟩ := hstep
  exact ⟨e, hexec, rfl⟩

theorem Tracked.step {s s' : Trace n} (hs : s.Tracked)
    (hstep : s.step op = some s') : s'.Tracked := by
  intro t
  obtain ⟨e, hexec, hlog⟩ := step_eq_some hstep
  rw [(executes_of_execute hexec).exclusive t _ (hs t), hlog, pending, pending, foldl_append]
  rfl

theorem tracked_start {s : Machine n} (hfresh : ∀ t, (s.threads t).exclusive = none) :
    (start s).Tracked :=
  hfresh

/-- A store-exclusive is of the same kind, one word or a pair, as the pending load of its thread. -/
def KindAgrees (s : Trace n) : Fin n × Ins → Prop
  | (t, .store ..) => ∀ access, pending t s.log = some access → access.pair = false
  | (t, .storePair ..) => ∀ access, pending t s.log = some access → access.pair = true
  | _ => True

theorem mem_of_pending {t : Fin n} {log : List (Event n)} (hpending : pending t log = some access) :
    .exclusiveLoad t access ∈ log := by
  induction log using List.reverseRecOn with
  | nil => cases hpending
  | append_singleton log e ih =>
    have htrack : e.track t (pending t log) = some access := by
      rwa [pending, foldl_append] at hpending
    refine mem_append.mpr ?_
    cases e with
    | exclusiveLoad t' access' =>
      rw [Event.track] at htrack
      split at htrack
      · next ht =>
        obtain rfl := Option.some.inj htrack
        exact .inr (mem_singleton.mpr (by rw [ht]))
      · exact .inl (ih htrack)
    | exclusiveStore t' access' status =>
      rw [Event.track, ite_none_left_eq_some] at htrack
      exact .inl (ih htrack.2)
    | clear t' =>
      rw [Event.track, ite_none_left_eq_some] at htrack
      exact .inl (ih htrack.2)
    | other => exact .inl (ih htrack)

theorem store_of_event {s s' : Trace n} {t : Fin n}
    (hstep : s.step op = some s') (hlog : s'.log = s.log ++ [.exclusiveStore t access status]) :
    Machine.StoresExclusive s.machine s'.machine t access status ∧
      (s.KindAgrees op ↔ ∀ pending', pending t s.log = some pending' → pending'.pair = access.pair) := by
  obtain ⟨e, hexec, hlog'⟩ := step_eq_some hstep
  obtain rfl : e = .exclusiveStore t access status := by
    simpa using hlog'.symm.trans hlog
  obtain ⟨t', ins⟩ := op
  cases ins with
  | load op bytes rt mem =>
    rw [Machine.execute, map_eq_some_iff] at hexec
    obtain ⟨out, -, heq⟩ := hexec
    have := (Prod.mk.inj heq).1
    split at this <;> cases this
  | store bytes ws rt mem =>
    rw [Machine.execute, map_eq_some_iff] at hexec
    obtain ⟨⟨status', s₂⟩, hstore, heq⟩ := hexec
    cases heq
    exact ⟨Machine.store_spec hstore, Iff.rfl⟩
  | storePair ws rt rt2 mem =>
    rw [Machine.execute, map_eq_some_iff] at hexec
    obtain ⟨⟨status', s₂⟩, hstore, heq⟩ := hexec
    cases heq
    exact ⟨Machine.storePair_spec hstore, Iff.rfl⟩
  | clrex => cases hexec
  | compute regs => cases hexec
  | loadPair | storeRelease | plainStore | rmw | cas | casp =>
    rw [Machine.execute, map_eq_some_iff] at hexec
    obtain ⟨out, -, heq⟩ := hexec
    cases heq

/-- A store-exclusive that succeeds finds the values of the reservation in memory and leaves the new
ones there; it is matched by the pending load of its thread just when their kinds agree. -/
theorem Tracked.store_success {s s' : Trace n} (hs : s.Tracked) {t : Fin n}
    (hstep : s.step op = some s') (hlog : s'.log = s.log ++ [.exclusiveStore t access 0]) :
    s'.machine.Holds (Machine.stored access) ∧
      ((∃ loaded, .exclusiveLoad t ⟨access.pair, access.addr, access.bytes, loaded⟩ ∈ s.log ∧
          pending t s.log = some ⟨access.pair, access.addr, access.bytes, loaded⟩ ∧
          s.machine.Holds ⟨access.pair, access.addr, access.bytes, loaded⟩) ↔ s.KindAgrees op) := by
  obtain ⟨hstores, hkind⟩ := store_of_event hstep hlog
  rcases hstores.outcome with ⟨hstatus, -⟩ | ⟨-, ⟨values, hexclusive, hholds⟩, hwritten⟩
  · exact absurd hstatus (by decide)
  refine ⟨hwritten.holds hholds, ?_⟩
  rw [hkind]
  constructor
  · rintro ⟨loaded, -, hpending, -⟩ access' hpending'
    obtain rfl := Option.some.inj (hpending.symm.trans hpending')
    rfl
  intro hagrees
  rw [hs t, map_eq_some_iff] at hexclusive
  obtain ⟨⟨pair, addr, bytes, loaded⟩, hpending, hres⟩ := hexclusive
  cases hres
  obtain rfl : pair = access.pair := hagrees _ hpending
  exact ⟨loaded, mem_of_pending hpending, hpending, hholds⟩

theorem store_failure {s s' : Trace n} {t : Fin n} (hstatus : status ≠ 0)
    (hstep : s.step op = some s') (hlog : s'.log = s.log ++ [.exclusiveStore t access status])
    (x : Nat) : s'.machine.maps.byteAt x = s.machine.maps.byteAt x := by
  rcases (store_of_event hstep hlog).1.outcome with ⟨-, hsame⟩ | ⟨hzero, -⟩
  · rw [hsame.bytes, if_neg (by simp)]
  · exact absurd hzero hstatus

/-! ### Increments -/

def Apart (word word' : BitVec 64 × Width) : Prop :=
  word.1.toNat + word.2.bytes ≤ word'.1.toNat ∨ word'.1.toNat + word'.2.bytes ≤ word.1.toNat

/-- A store-exclusive to the word of one more than the thread's pending load returned. -/
def AddsOne (addr : BitVec 64) (bytes : Width) (s : Trace n) : Fin n × Ins → Prop
  | (t, .store width _ rt mem) =>
    s.machine.resolveMemAddr t mem = addr ∧ width.getD rt.bytes = bytes ∧
      ∀ access ∈ pending t s.log,
        Machine.lowBytes bytes (s.machine.readReg t rt) =
          Machine.lowBytes bytes (access.values.1 + 1)
  | _ => False

instance (word word' : BitVec 64 × Width) : Decidable (Apart word word') :=
  inferInstanceAs (Decidable (_ ∨ _))

instance (addr : BitVec 64) (bytes : Width) (s : Trace n) (op : Fin n × Ins) :
    Decidable (s.AddsOne addr bytes op) := by
  unfold AddsOne
  split <;> infer_instance

/-- The step adds one to the word or does not write to it. -/
def Increments (addr : BitVec 64) (bytes : Width) (s : Trace n) (op : Fin n × Ins) : Prop :=
  s.AddsOne addr bytes op ∨ ∀ word ∈ s.machine.footprint op.1 op.2, Apart word (addr, bytes)

instance (addr : BitVec 64) (bytes : Width) (s : Trace n) (op : Fin n × Ins) :
    Decidable (s.Increments addr bytes op) :=
  inferInstanceAs (Decidable (_ ∨ _))

def succeeds (addr : BitVec 64) (bytes : Width) : Event n → Bool
  | .exclusiveStore _ access status =>
    !access.pair && access.addr == addr && access.bytes == bytes && status == 0
  | _ => false

def successes (addr : BitVec 64) (bytes : Width) (log : List (Event n)) : Nat :=
  log.countP (succeeds addr bytes)

theorem successes_append (addr : BitVec 64) (bytes : Width) (log : List (Event n)) (e : Event n) :
    successes addr bytes (log ++ [e]) =
      successes addr bytes log + if succeeds addr bytes e then 1 else 0 := by
  rw [successes, countP_append, countP_singleton, successes]

theorem lowBytes_add_one (bytes : Width) (k : Nat) :
    Machine.lowBytes bytes (BitVec.ofNat 64 (k % 2 ^ bytes.bits) + 1) =
      BitVec.ofNat 64 ((k + 1) % 2 ^ bytes.bits) := by
  have hdvd : 2 ^ bytes.bits ∣ 2 ^ 64 := Nat.pow_dvd_pow 2 (by cases bytes <;> decide)
  have hone : (1 : BitVec 64).toNat = 1 := rfl
  rw [Machine.lowBytes, toNat_add, toNat_ofNat, Nat.mod_mod_of_dvd _ hdvd, hone,
    Nat.add_mod, Nat.mod_mod_of_dvd _ hdvd, Nat.mod_mod, ← Nat.add_mod]

/-- The word has the first value plus one for each success. -/
def Counts (addr : BitVec 64) (bytes : Width) (v₀ : BitVec 64) (s : Trace n) : Prop :=
  s.machine.word addr bytes =
    some (BitVec.ofNat 64 ((v₀.toNat + successes addr bytes s.log) % 2 ^ bytes.bits))

variable {s s' : Trace n} {v₀ : BitVec 64}

theorem Tracked.counts_store (hs : s.Tracked) {t : Fin n}
    (hcounts : s.Counts access.addr access.bytes v₀) (hpair : access.pair = false)
    (hvalue : ∀ loaded, pending t s.log = some loaded →
      Machine.lowBytes access.bytes access.values.1 =
        Machine.lowBytes access.bytes (loaded.values.1 + 1))
    (hstores : Machine.StoresExclusive s.machine s'.machine t access status)
    (hlog : s'.log = s.log ++ [.exclusiveStore t access status]) :
    s'.Counts access.addr access.bytes v₀ := by
  rw [Counts, hlog, successes_append]
  rcases hstores.outcome with ⟨rfl, hsame⟩ | ⟨rfl, ⟨values, hexclusive, hholds⟩, hwritten⟩
  · have hfails : succeeds access.addr access.bytes (.exclusiveStore t access 1) = false := by
      simp [succeeds]
    rw [Machine.word_of_stores hsame, hfails, if_neg Bool.false_ne_true, Nat.add_zero]
    exact hcounts
  have hsucceeds : succeeds access.addr access.bytes (.exclusiveStore t access 0) = true := by
    simp [succeeds, hpair]
  rw [hs t, map_eq_some_iff] at hexclusive
  obtain ⟨loaded, hpending, hres⟩ := hexclusive
  have hvalues : loaded.values = values := congrArg Reservation.values hres
  have hold : values.1 = _ := Option.some.inj (hholds.1.symm.trans hcounts)
  have hnew : s'.machine.word access.addr access.bytes =
      some (Machine.lowBytes access.bytes access.values.1) := (hwritten.holds hholds).1
  rw [hnew, hsucceeds, if_pos rfl, ← Nat.add_assoc, ← lowBytes_add_one, ← hold, ← hvalues]
  exact congrArg some (hvalue loaded hpending)

theorem counts_apart {addr : BitVec 64} {bytes : Width} (hcounts : s.Counts addr bytes v₀)
    (hstep : s.step op = some s')
    (hapart : ∀ word ∈ s.machine.footprint op.1 op.2, Apart word (addr, bytes)) :
    s'.Counts addr bytes v₀ := by
  obtain ⟨e, hexec, hlog⟩ := step_eq_some hstep
  have hquiet : succeeds addr bytes e = false := by
    cases e with
    | exclusiveStore t access status =>
      refine Bool.eq_false_iff.mpr fun hsucceeds => ?_
      simp only [succeeds, Bool.and_eq_true, beq_iff_eq] at hsucceeds
      obtain ⟨⟨⟨-, rfl⟩, rfl⟩, -⟩ := hsucceeds
      have hself := hapart _ ((executes_of_execute hexec).stored t access status rfl)
      have hpos := bytes_pos access.bytes
      simp only [Apart] at hself
      omega
    | _ => rfl
  rw [Counts, hlog, successes_append, hquiet, if_neg Bool.false_ne_true, Nat.add_zero]
  rw [Counts, Machine.word_eq, map_eq_some_iff] at hcounts
  obtain ⟨value, hpeek, hvalue⟩ := hcounts
  have hkeeps := (executes_of_execute hexec).keeps _ _ _ (bytes_pos bytes) (fun range hrange => by
    obtain ⟨word, hword, rfl⟩ := mem_map.mp hrange
    exact hapart word hword) hpeek
  rw [Machine.word_eq, hkeeps, map_some, hvalue]

theorem Tracked.counts {addr : BitVec 64} {bytes : Width} (hs : s.Tracked)
    (hcounts : s.Counts addr bytes v₀) (hop : s.Increments addr bytes op)
    (hstep : s.step op = some s') : s'.Counts addr bytes v₀ := by
  rcases hop with hadds | hapart
  · obtain ⟨e, hexec, hlog⟩ := step_eq_some hstep
    obtain ⟨t, ins⟩ := op
    cases ins with
    | store width ws rt mem =>
      obtain ⟨rfl, rfl, hvalue⟩ := hadds
      rw [Machine.execute, map_eq_some_iff] at hexec
      obtain ⟨⟨status, s₂⟩, hstore, heq⟩ := hexec
      obtain ⟨rfl, rfl⟩ := Prod.mk.inj heq
      exact hs.counts_store hcounts rfl hvalue (Machine.store_spec hstore) hlog
    | _ => exact hadds.elim
  · exact counts_apart hcounts hstep hapart

/-- In every state that any interleaving of the threads' instructions reaches: a store-exclusive that
reports success leaves its values in memory, and it was preceded by a load of the same address,
width and kind by that thread, whose values memory still held, just when it agrees in kind with the
thread's pending load; one that reports failure changes nothing; and a word that is only changed by
storing what the pending load returned plus one counts the successes. -/
theorem exclusive_access_iff_kindAgrees (s₀ : Machine n)
    (hfresh : ∀ t, (s₀.threads t).exclusive = none) (ops : List (Fin n × Ins)) (s : Trace n)
    (hrun : run step (start s₀) ops = some s) : (∀ op s' t access status, s.step op = some s' →
      s'.log = s.log ++ [.exclusiveStore t access status] →
      (status = 0 → s'.machine.Holds (Machine.stored access) ∧
        ((∃ loaded, .exclusiveLoad t ⟨access.pair, access.addr, access.bytes, loaded⟩ ∈ s.log ∧
            pending t s.log = some ⟨access.pair, access.addr, access.bytes, loaded⟩ ∧
            s.machine.Holds ⟨access.pair, access.addr, access.bytes, loaded⟩) ↔ s.KindAgrees op)) ∧
      (status ≠ 0 → ∀ x, s'.machine.maps.byteAt x = s.machine.maps.byteAt x)) ∧
    ∀ addr bytes v₀, s₀.word addr bytes = some v₀ →
      Along step (Increments addr bytes) (start s₀) ops → s.machine.word addr bytes =
        some (BitVec.ofNat 64 ((v₀.toNat + successes addr bytes s.log) % 2 ^ bytes.bits)) := by
  have hs : s.Tracked := run_preserves Tracked (fun _ _ _ hs _ hstep => hs.step hstep)
    (tracked_start hfresh) (along_true _ ops) hrun
  refine ⟨fun op s' t access status hstep hlog => ⟨?_, ?_⟩, fun addr bytes v₀ hv₀ hadds => ?_⟩
  · rintro rfl
    exact hs.store_success hstep hlog
  · exact fun hstatus x => store_failure hstatus hstep hlog x
  have hstart : (start s₀).Counts addr bytes v₀ := by
    have hlt := Machine.word_lt hv₀
    have hcount : successes addr bytes (start s₀).log = 0 := rfl
    rw [Counts, hcount, Nat.add_zero, Nat.mod_eq_of_lt hlt, ofNat_toNat, setWidth_eq]
    exact hv₀
  exact (run_preserves (fun s : Trace n => s.Tracked ∧ s.Counts addr bytes v₀)
    (fun _ _ _ hs hop hstep => ⟨hs.1.step hstep, hs.1.counts hs.2 hop hstep⟩)
    ⟨tracked_start hfresh, hstart⟩ hadds hrun).2

def sharedMaps : Maps :=
  (Maps.default.createMap "shared" 0x1000 16 Mem64.default.permission).1

theorem sharedMaps_wf : sharedMaps.Wf :=
  (Maps.wf_default.createMap Mem64.default.permission (by decide) (.inr (.inr fun key r hget => by
    simp [Maps.default] at hget))).wf

/-- Two threads with the address of the first word in `x0` and one in `x1`. -/
def twoThreads : Machine 2 where
  maps := sharedMaps
  wf := sharedMaps_wf
  threads := fun _ => ⟨⟨fun i => if i = 0 then 0x1000 else 1, 0⟩, none⟩

def x (n : Fin 32) : Reg := ⟨.x, n⟩

def w (n : Fin 32) : Reg := ⟨.w, n⟩

def atX0 : MemOperand := ⟨0, 0⟩

/-- Both threads load zero exclusively; the first stores one and the second then fails. -/
def race : List (Fin 2 × Ins) :=
  [(0, .load .ldxr none (x 2) atX0), (1, .load .ldxr none (x 2) atX0),
    (0, .store none (w 3) (x 1) atX0), (1, .store none (w 3) (x 1) atX0)]

theorem exclusive_access_iff_kindAgrees_race : ∃ s, run step (start twoThreads) race = some s ∧
      s.machine.word 0x1000 .qword =
        some (BitVec.ofNat 64 ((0 + successes 0x1000 .qword s.log) % 2 ^ 64)) := by
  obtain ⟨s, hrun⟩ := isSome_iff_exists.mp
    (by decide +kernel : (run step (start twoThreads) race).isSome = true)
  exact ⟨s, hrun, (exclusive_access_iff_kindAgrees twoThreads (fun _ => rfl) race s hrun).2
    0x1000 .qword 0 (by decide +kernel) (by decide +kernel)⟩

/-- A load of one word is followed by a store of a pair that succeeds on it. -/
theorem storePair_succeeds_after_single_load :
    (run step (start twoThreads) [(0, .load .ldxr none (x 2) atX0),
        (0, .storePair (w 3) (x 1) (x 1) atX0)]).map log =
      some [.exclusiveLoad 0 ⟨false, 0x1000, .qword, (0, 0)⟩,
        .exclusiveStore 0 ⟨true, 0x1000, .qword, (1, 1)⟩ 0] := by
  decide +kernel

end Trace

end Mwemu.Aarch64
