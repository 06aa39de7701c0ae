import Mwemu.O1Heap.Release

/-!
# The allocator and its history

The calls of a run say which addresses are live: those that a call has returned and none has released
since. The queries and the calls answer for the used blocks of the row. Both agree for every address
less than 4 GiB above the base, and for every other one that is not a live address modulo 4 GiB.
-/

namespace Mwemu.O1Heap

open Mwemu.Lib List

/-! ### Used offsets of a row -/

def UsedAt (bs : List Block) (o : Nat) : Prop :=
  ∃ b ∈ bs, b.used = true ∧ b.offset = o

variable {bs : List Block} {o : Nat}

theorem usedAt_append {cs : List Block} : UsedAt (bs ++ cs) o ↔ UsedAt bs o ∨ UsedAt cs o := by
  simp only [UsedAt, mem_append, or_and_right, exists_or]

variable {b : Block}

theorem usedAt_cons : UsedAt (b :: bs) o ↔ b.used = true ∧ b.offset = o ∨ UsedAt bs o := by
  simp only [UsedAt, mem_cons, or_and_right, exists_or, exists_eq_left]

theorem not_usedAt_nil : ¬ UsedAt [] o := nofun

theorem usedAt_take {l r : List Block} {size : Nat} (hfree : b.used = false) :
    UsedAt (l ++ takenBlocks b size ++ r) o ↔ UsedAt (l ++ b :: r) o ∨ o = b.offset := by
  have htaken : UsedAt (takenBlocks b size) o ↔ b.offset = o := by
    rw [takenBlocks]
    split_ifs <;> simp [UsedAt]
  rw [usedAt_append, usedAt_append, usedAt_append, usedAt_cons, htaken, hfree, eq_comm]
  tauto

theorem usedAt_freeRow {o' : Nat} (hbs : Releasable bs) :
    UsedAt (freeRow bs o') o ↔ UsedAt bs o ∧ o ≠ o' := by
  constructor
  · rintro ⟨b, hb, hused, rfl⟩
    obtain ⟨hmem, hne⟩ := (mem_freeRow_used hbs hused).mp hb
    exact ⟨⟨b, hmem, hused, rfl⟩, hne⟩
  · rintro ⟨⟨b, hb, hused, rfl⟩, hne⟩
    exact ⟨b, (mem_freeRow_used hbs hused).mpr ⟨hb, hne⟩, hused, rfl⟩

/-- Of the blocks that are resized only `b` is used, and the new block starts where the first does. -/
theorem usedAt_resize {cap : Nat} {bs' : List Block} {c : Block} {size total : Nat}
    (hlayout : Layout cap bs) (hresized : Resized bs b size c total bs') (hused : b.used = true) :
    UsedAt bs' o ↔ UsedAt bs o ∧ o ≠ b.offset ∨ o = c.offset := by
  obtain ⟨l, rest, r, rfl, hb, hfree, -, -, rfl⟩ := hresized
  have hmid : UsedAt (c :: rest) o ↔ o = b.offset := by
    constructor
    · rintro ⟨d, hd, hdused, rfl⟩
      by_contra hne
      rw [hfree d hd fun heq => hne (by rw [heq])] at hdused
      cases hdused
    · rintro rfl
      exact ⟨b, hb, hused, rfl⟩
  have hnew : UsedAt (resizedBlocks c.offset size total) o ↔ o = c.offset := by
    rw [resizedBlocks]
    split_ifs <;> simp only [usedAt_cons, not_usedAt_nil, Bool.false_eq_true, false_and, or_false,
      true_and, eq_comm]
  obtain ⟨hlm, -, hr⟩ := pairwise_append.mp hlayout.pairwise_offset_ne
  obtain ⟨-, -, hl⟩ := pairwise_append.mp hlm
  have hleft : UsedAt l o → o ≠ b.offset := by
    rintro ⟨d, hd, -, rfl⟩
    exact hl d hd b hb
  have hright : UsedAt r o → o ≠ b.offset := by
    rintro ⟨d, hd, -, rfl⟩
    exact (hr b (mem_append_right _ hb) d hd).symm
  rw [usedAt_append, usedAt_append, usedAt_append, usedAt_append, hmid, hnew]
  tauto

/-! ### The history -/

/-- A heap and the addresses that are live by the calls so far. -/
structure Traced where
  heap : O1Heap
  live : List Nat

def track (live : List Nat) (r : Option Nat) : Op → List Nat
  | .allocate _ => r.toList ++ live
  | .free address => live.filter (· ≠ address)
  | .reallocate address amount =>
    if amount = 0 ∨ r.isSome then r.toList ++ live.filter (· ≠ address) else live

def tracedStep (s : Traced) (op : Op) : Option Traced :=
  (s.heap.call op).map fun (r, h) => ⟨h, track s.live r op⟩

/-- The address is less than 4 GiB above the base, or no used fragment has its offset. -/
def Aims (h : O1Heap) (address : Nat) : Prop :=
  h.base ≤ address ∧ address < h.base + 2 ^ 32 ∨
    ∀ id ∈ h.hashes.get (h.offsetOf address), (h.nodes id).used = false

/-- The call is tidy, and an address that it releases is not a live one modulo 4 GiB. -/
def Aimed (s : Traced) : Op → Prop
  | .allocate _ => True
  | .free address => Aims s.heap address
  | .reallocate address amount =>
    Tidy s.heap (.reallocate address amount) ∧ (amount = 0 → Aims s.heap address)

instance {h : O1Heap} {address : Nat} : Decidable (Aims h address) :=
  inferInstanceAs (Decidable (_ ∨ ∀ id ∈ h.hashes.get (h.offsetOf address), (h.nodes id).used = false))

instance {s : Traced} {op : Op} : Decidable (Aimed s op) :=
  match op with
  | .allocate _ => .isTrue trivial
  | .free address => inferInstanceAs (Decidable (Aims s.heap address))
  | .reallocate address amount =>
    inferInstanceAs (Decidable (Tidy s.heap (.reallocate address amount) ∧
      (amount = 0 → Aims s.heap address)))

variable {s : Traced} {op : Op}

theorem Aimed.tidy (hop : Aimed s op) : Tidy s.heap op := by
  cases op with
  | allocate amount => trivial
  | free address => trivial
  | reallocate address amount => exact hop.1

def LiveOf (base : Nat) (bs : List Block) (live : List Nat) : Prop :=
  ∀ x, x ∈ live ↔ ∃ o, UsedAt bs o ∧ x = base + o

section Live

variable {base o₁ o₂ : Nat} {bs bs' : List Block} {live : List Nat}

theorem LiveOf.insert (hlive : LiveOf base bs live)
    (hused : ∀ o, UsedAt bs' o ↔ UsedAt bs o ∨ o = o₁) : LiveOf base bs' ((base + o₁) :: live) := by
  intro x
  simp only [mem_cons, hlive x, hused, or_and_right, exists_or, exists_eq_left, or_comm]

theorem LiveOf.remove (hlive : LiveOf base bs live)
    (hused : ∀ o, UsedAt bs' o ↔ UsedAt bs o ∧ o ≠ o₁) :
    LiveOf base bs' (live.filter (· ≠ base + o₁)) := by
  intro x
  rw [mem_filter, hlive x]
  constructor
  · rintro ⟨⟨o, ho, rfl⟩, hne⟩
    exact ⟨o, (hused o).mpr ⟨ho, fun heq => of_decide_eq_true hne (heq ▸ rfl)⟩, rfl⟩
  · rintro ⟨o, ho, rfl⟩
    obtain ⟨ho, hne⟩ := (hused o).mp ho
    exact ⟨⟨o, ho, rfl⟩, decide_eq_true fun heq => hne (Nat.add_left_cancel heq)⟩

theorem LiveOf.replace (hlive : LiveOf base bs live)
    (hused : ∀ o, UsedAt bs' o ↔ UsedAt bs o ∧ o ≠ o₁ ∨ o = o₂) :
    LiveOf base bs' ((base + o₂) :: live.filter (· ≠ base + o₁)) := by
  intro x
  rw [mem_cons, mem_filter, hlive x]
  constructor
  · rintro (rfl | ⟨⟨o, ho, rfl⟩, hne⟩)
    · exact ⟨o₂, (hused o₂).mpr (.inr rfl), rfl⟩
    · exact ⟨o, (hused o).mpr (.inl ⟨ho, fun heq => of_decide_eq_true hne (heq ▸ rfl)⟩), rfl⟩
  · rintro ⟨o, ho, rfl⟩
    rcases (hused o).mp ho with ⟨ho, hne⟩ | rfl
    · exact .inr ⟨⟨o, ho, rfl⟩, decide_eq_true fun heq => hne (Nat.add_left_cancel heq)⟩
    · exact .inl rfl

end Live

section Calls

variable {h : O1Heap} {ids live : List Nat} {address amount : Nat}

theorem Aims.window_or (hr : Rep h ids) (haims : Aims h address) :
    h.base ≤ address ∧ address < h.base + 2 ^ 32 ∨ ¬ UsedAt (h.row ids) (h.offsetOf address) := by
  refine haims.imp_right fun hno => ?_
  rintro ⟨b, hb, hused, hoffset⟩
  obtain ⟨id, hid, rfl⟩ := mem_map.mp hb
  obtain ⟨hget, hused⟩ := hr.indexed_iff.mpr ⟨hid, hused, hoffset⟩
  rw [hno id hget] at hused
  cases hused

theorem Rep.usedAt_lt (hr : Rep h ids) (ho : UsedAt (h.row ids) o) :
    o < h.diagnostics.capacity := by
  obtain ⟨b, hb, -, rfl⟩ := ho
  obtain ⟨id, hid, rfl⟩ := mem_map.mp hb
  have hstop := hr.stop_le hid
  have hmin := hr.min_size hid
  change (h.nodes id).offset < _
  omega

theorem LiveOf.free (hlive : LiveOf h.base (h.row ids) live) (hr : Rep h ids)
    (hrow : Releasable (h.row ids)) (haims : Aims h address) :
    LiveOf h.base (freeRow (h.row ids) (h.offsetOf address)) (live.filter (· ≠ address)) := by
  by_cases hwindow : h.base ≤ address ∧ address < h.base + 2 ^ 32
  · have heq : address = h.base + h.offsetOf address := by
      rw [offsetOf]
      omega
    have hused : ∀ o, UsedAt (freeRow (h.row ids) (h.offsetOf address)) o ↔
        UsedAt (h.row ids) o ∧ o ≠ h.offsetOf address := fun o => usedAt_freeRow hrow
    have hremove := hlive.remove hused
    rwa [← heq] at hremove
  -- nothing is released, and the address is none of the live ones
  have hno := (haims.window_or hr).resolve_left hwindow
  intro x
  rw [mem_filter, hlive x]
  constructor
  · rintro ⟨⟨o, ho, rfl⟩, -⟩
    exact ⟨o, (usedAt_freeRow hrow).mpr ⟨ho, fun heq => hno (heq ▸ ho)⟩, rfl⟩
  rintro ⟨o, ho, rfl⟩
  have ho := ((usedAt_freeRow hrow).mp ho).1
  refine ⟨⟨o, ho, rfl⟩, decide_eq_true fun heq => hwindow ?_⟩
  have hlt := hr.usedAt_lt ho
  have hsmall := hr.small
  omega

theorem LiveOf.resize (hlive : LiveOf h.base (h.row ids) live) (hr : Rep h ids)
    (hrow : Releasable (h.row ids)) (hfit : h.base + h.diagnostics.capacity ≤ 2 ^ 64) {id : Nat}
    (ha : Accepts h address amount id) {r : ReallocResult}
    (hresize : ResizeResult h ids id (fragmentSize amount) (some r) bs) :
    LiveOf h.base bs (r.newAddr :: live.filter (· ≠ address)) := by
  obtain ⟨hid, -, -, haddress⟩ := ha.address_eq hr
  have hblock : h.blockOf id ∈ h.row ids := mem_map_of_mem hid
  have hsize := (fragmentSize_min ha.size_ne).2
  generalize hres : some r = res at hresize
  rw [haddress]
  cases hresize with
  | failed => cases hres
  | @inPlace c _ _ _ hresized htotal haddr =>
    cases hres
    have hfirst : r.newAddr = h.base + c.offset := by
      rcases haddr with ⟨-, rfl⟩ | ⟨-, rfl⟩
      · rfl
      · obtain ⟨l, rest, r', hsplit, -⟩ := hresized
        exact hr.address_mod hfit (by simp [hsplit])
    rw [hfirst]
    exact hlive.replace fun o => usedAt_resize hr.layout hresized ha.used
  | moved hsplit hfree hle hgrow =>
    cases hres
    rename_i l r c
    have hfirst : (c.offset + h.base) % 2 ^ 64 = h.base + c.offset := by
      rw [Nat.add_comm]
      exact hr.address_mod hfit (by simp [hsplit])
    have htaken : Releasable (l ++ takenBlocks c (fragmentSize amount) ++ r) :=
      (hsplit ▸ hrow).take hsize
    dsimp only
    rw [hfirst]
    refine hlive.replace fun o => ?_
    rw [usedAt_freeRow htaken, usedAt_take hfree, hsplit]
    -- the block that is taken is free, so it is another than the one that is released
    have hne : c.offset ≠ (h.nodes id).offset :=
      hr.layout.offset_ne (by simp [hsplit]) hblock hfree ha.used
    constructor
    · rintro ⟨ho | rfl, hne'⟩
      · exact .inl ⟨ho, hne'⟩
      · exact .inr rfl
    · rintro (⟨ho, hne'⟩ | rfl)
      · exact ⟨.inl ho, hne'⟩
      · exact ⟨.inr rfl, hne⟩

theorem LiveOf.step {a : Option Nat} (hlive : LiveOf h.base (h.row ids) live) (hr : Rep h ids)
    (hrow : Releasable (h.row ids)) (hfit : h.base + h.diagnostics.capacity ≤ 2 ^ 64)
    (hop : Aimed ⟨h, live⟩ op) (hstep : RowStep h ids op a bs) :
    LiveOf h.base bs (track live a op) := by
  cases hstep with
  | taken hsize hsplit hfree hle =>
    rename_i amount l r b
    have hfirst : (b.offset + h.base) % 2 ^ 64 = h.base + b.offset := by
      rw [Nat.add_comm]
      exact hr.address_mod hfit (by simp [hsplit])
    rw [hfirst]
    exact hlive.insert fun o => by rw [usedAt_take hfree, hsplit]
  | full => exact hlive
  | freed => exact hlive.free hr hrow hop
  | reallocated hresult =>
    rename_i address amount r
    cases hresult with
    | free hamount =>
      rw [track, if_pos (.inl hamount)]
      exact hlive.free hr hrow (hop.2 hamount)
    | refused hamount =>
      rw [track, if_neg (by simp [hamount])]
      exact hlive
    | resized ha hresize =>
      cases r with
      | none =>
        rw [track, if_neg (by simp [ha.amount_ne])]
        cases hresize
        exact hlive
      | some r =>
        rw [track, if_pos (.inr rfl)]
        exact hlive.resize hr hrow hfit ha hresize

end Calls

def Tracks (base : UInt64) (size : UInt32) (s : Traced) : Prop :=
  s.heap.base = base.toNat ∧ s.heap.diagnostics.capacity = size.toNat ∧
    ∃ ids, Rep s.heap ids ∧ Releasable (s.heap.row ids) ∧
      LiveOf s.heap.base (s.heap.row ids) s.live

variable {base : UInt64} {size : UInt32}

theorem Tracks.of_new {h : O1Heap} (hnew : new base size = some h) : Tracks base size ⟨h, []⟩ := by
  obtain ⟨hbase, hcapacity, ids, hr, hrow⟩ := TidyArena.of_new hnew
  obtain ⟨-, hdiagnostics, -, -⟩ := new_eq_some hnew
  refine ⟨hbase, hcapacity, ids, hr, hrow, fun x => ⟨nofun, ?_⟩⟩
  rintro ⟨o, ⟨b, hb, hused, -⟩, -⟩
  -- nothing is in use, so no block is
  have hle := usedTotal_le_of_mem hb hused
  have hmin := hr.layout.min b hb
  have hallocated := hr.allocated
  rw [hdiagnostics] at hallocated
  rw [← hallocated] at hle
  exact absurd (Nat.le_trans hmin hle) (Nat.not_succ_le_zero 255)

theorem Tracks.step (hfit : base.toNat + size.toNat ≤ 2 ^ 64) (hs : Tracks base size s)
    (hop : Aimed s op) : ∃ s', tracedStep s op = some s' ∧ Tracks base size s' := by
  obtain ⟨hbase, hcapacity, ids, hr, hrow, hlive⟩ := hs
  obtain ⟨a, h', bs, hcall, hbecomes, hstep⟩ := hr.call hop.tidy.spares
  refine ⟨⟨h', track s.live a op⟩, by rw [tracedStep, hcall]; rfl, hbecomes.base.trans hbase,
    hbecomes.capacity.trans hcapacity, ?_⟩
  have hlive' := hlive.step hr hrow (by rw [hbase, hcapacity]; exact hfit) hop hstep
  obtain ⟨ids', hr', rfl⟩ := hbecomes.rep
  refine ⟨ids', hr', hrow.step hop.tidy hstep, ?_⟩
  rwa [← hbecomes.base] at hlive'

/-! ### Queries and calls on one address -/

/-- All of the interface takes the address for a live one, or all for one that is not. -/
structure Agrees (h : O1Heap) (live : Prop) (x : Nat) : Prop where
  size : (h.allocationSize x).isSome = true ↔ live
  check : h.checkFragmentExists x = true ↔ live
  free : h.free x ≠ some h ↔ live
  reallocate : (∃ r h', h.reallocate x 1 = some (some r, h')) ↔ live
  refused : ¬ live → ∀ n, ∃ h', h.reallocate x n = some (none, h')

section Agrees

variable {h : O1Heap} {ids : List Nat} {x : Nat}

section

variable (hr : Rep h ids)
include hr

theorem Rep.allocationSize_isSome_iff :
    (h.allocationSize x).isSome = true ↔ h.base ≤ x ∧ UsedAt (h.row ids) (h.offsetOf x) := by
  rw [Option.isSome_iff_exists]
  constructor
  · rintro ⟨n, hn⟩
    obtain ⟨hle, hmem⟩ := hr.allocationSize_eq_some.mp hn
    exact ⟨hle, _, hmem, rfl, rfl⟩
  · rintro ⟨hle, b, hb, hused, hoffset⟩
    refine ⟨b.size, hr.allocationSize_eq_some.mpr ⟨hle, ?_⟩⟩
    rw [← hoffset, ← hused]
    exact hb

theorem Rep.free_ne_iff (hrow : Releasable (h.row ids)) :
    h.free x ≠ some h ↔ UsedAt (h.row ids) (h.offsetOf x) := by
  constructor
  · intro hne
    by_contra hno
    refine hne (hr.free_refused ?_)
    rintro ⟨b, hb, hused, hoffset, -⟩
    exact hno ⟨b, hb, hused, hoffset⟩
  · rintro ⟨b, hb, hused, hoffset⟩ hsame
    -- the block is live at the base plus its offset, and is not after the release
    obtain ⟨h', hfree, hbecomes⟩ := hr.becomes_free x
    obtain ⟨hlt, hlive⟩ := hr.live_of_mem hb hused
    obtain rfl : h' = h := Option.some.inj (hfree.symm.trans hsame)
    have hgone := (hr.allocationSize_freed hrow hbecomes (h'.base + b.offset) b.size).mp hlive
    exact hgone.2 ((offsetOf_base_add hlt).trans hoffset)

theorem Accepts.usedAt {n id : Nat} (ha : Accepts h x n id) :
    (h.base ≤ x ∧ x < h.base + 2 ^ 32) ∧ UsedAt (h.row ids) (h.offsetOf x) := by
  obtain ⟨hid, -, hoffset, -⟩ := ha.address_eq hr
  have hle := ha.base_le
  have hlt := ha.offset_lt
  exact ⟨⟨hle, by omega⟩, h.blockOf id, mem_map_of_mem hid, ha.used, hoffset.symm⟩

theorem Rep.reallocate_one (hrow : Releasable (h.row ids))
    (hwindow : h.base ≤ x ∧ x < h.base + 2 ^ 32) (hused : UsedAt (h.row ids) (h.offsetOf x)) :
    ∃ r h', h.reallocate x 1 = some (some r, h') := by
  obtain ⟨b, hb, hused, hoffset⟩ := hused
  obtain ⟨id, hid, rfl⟩ := mem_map.mp hb
  have hmin := hr.min_size hid
  have hstop := hr.stop_le hid
  have hmod : (h.nodes id).size % fragmentSizeMin = 0 := hrow _ hb hused
  have hdiff : x - h.base = h.offsetOf x := by
    rw [offsetOf]
    omega
  have hone : fragmentSize 1 = 256 := by decide
  have ha : Accepts h x 1 id :=
    { amount_ne := Nat.one_ne_zero
      base_le := hwindow.1
      offset_lt := by omega
      get := hdiff ▸ (hr.indexed_iff.mpr ⟨hid, hused, hoffset⟩).1
      used := hused
      valid := by
        rw [invalidSize, decide_eq_false (by rw [fragmentSizeMin]; omega), decide_eq_false (by omega),
          decide_eq_false (not_not.mpr hmod)]
        rfl
      size_ne := by rw [hone]; decide
      amount_le := by omega
      size_le := by omega }
  obtain ⟨-, haddress, -, -⟩ := ha.address_eq hr
  obtain ⟨front, back, rfl⟩ := append_of_mem hid
  have hle : fragmentSize 1 ≤ ((h.recordRequest 1).nodes id).size := by
    rw [hone]
    exact hmin
  obtain ⟨h', -, -, hcall, -⟩ := (hr.recordRequest 1).shrink ha.used hmod haddress (by rw [hone])
    (by rw [hone]) hle
  refine ⟨⟨x, 0⟩, h', ha.reallocate_eq.trans ?_⟩
  rw [O1Heap.resize]
  exact (if_pos hle).trans hcall

theorem Rep.reallocate_refused
    (hno : ¬ ((h.base ≤ x ∧ x < h.base + 2 ^ 32) ∧ UsedAt (h.row ids) (h.offsetOf x))) (n : Nat) :
    ∃ h', h.reallocate x n = some (none, h') := by
  by_cases hn : n = 0
  · obtain ⟨h', hfree, -⟩ := hr.becomes_free x
    refine ⟨h', ?_⟩
    rw [O1Heap.reallocate, if_pos hn, hfree]
    rfl
  · have hnone : ¬ ∃ id, Accepts h x n id := by
      rintro ⟨id, ha⟩
      exact hno (ha.usedAt hr)
    obtain ⟨h', hcall, -⟩ := O1Heap.reallocate_refused hn hnone
    exact ⟨h', hcall⟩

theorem Rep.reallocate_one_iff (hrow : Releasable (h.row ids)) :
    (∃ r h', h.reallocate x 1 = some (some r, h')) ↔
      (h.base ≤ x ∧ x < h.base + 2 ^ 32) ∧ UsedAt (h.row ids) (h.offsetOf x) := by
  constructor
  · rintro ⟨r, h', hcall⟩
    by_contra hno
    obtain ⟨h'', hcall'⟩ := hr.reallocate_refused hno 1
    rw [hcall] at hcall'
    cases hcall'
  · rintro ⟨hwindow, hused⟩
    exact hr.reallocate_one hrow hwindow hused

end

end Agrees

theorem Tracks.agrees_iff (hs : Tracks base size s) (x : Nat) : Agrees s.heap (x ∈ s.live) x ↔
      base.toNat ≤ x ∧ x < base.toNat + 2 ^ 32 ∨
        ∀ y ∈ s.live, s.heap.offsetOf x ≠ s.heap.offsetOf y := by
  obtain ⟨hbase, -, ids, hr, hrow, hlive⟩ := hs
  have hlt : ∀ o, UsedAt (s.heap.row ids) o → o < 2 ^ 32 := fun o ho =>
    Nat.lt_trans (hr.usedAt_lt ho) hr.small
  have hmem : x ∈ s.live ↔ (s.heap.base ≤ x ∧ x < s.heap.base + 2 ^ 32) ∧
      UsedAt (s.heap.row ids) (s.heap.offsetOf x) := by
    rw [hlive x]
    constructor
    · rintro ⟨o, ho, rfl⟩
      have := hlt o ho
      rw [offsetOf_base_add this]
      exact ⟨by omega, ho⟩
    · rintro ⟨hwindow, ho⟩
      refine ⟨s.heap.offsetOf x, ho, ?_⟩
      rw [offsetOf]
      omega
  have halias : (∀ y ∈ s.live, s.heap.offsetOf x ≠ s.heap.offsetOf y) ↔
      ¬ UsedAt (s.heap.row ids) (s.heap.offsetOf x) := by
    constructor
    · intro hall hused
      refine hall (s.heap.base + s.heap.offsetOf x) ((hlive _).mpr ⟨_, hused, rfl⟩) ?_
      rw [offsetOf_base_add (hlt _ hused)]
    · intro hno y hy heq
      obtain ⟨o, ho, rfl⟩ := (hlive y).mp hy
      rw [heq, offsetOf_base_add (hlt o ho)] at hno
      exact hno ho
  rw [halias, ← hbase]
  constructor
  · intro hagrees
    refine or_iff_not_imp_right.mpr fun hused => ?_
    have := (hagrees.free.mp ((hr.free_ne_iff hrow).mpr (not_not.mp hused)))
    exact (hmem.mp this).1
  intro hcase
  refine ⟨?_, ?_, ?_, ?_, fun hno => hr.reallocate_refused fun h => hno (hmem.mpr h)⟩
  · rw [hr.allocationSize_isSome_iff, hmem]
    tauto
  · rw [checkFragmentExists_eq, hr.allocationSize_isSome_iff, hmem]
    tauto
  · rw [hr.free_ne_iff hrow, hmem]
    tauto
  · rw [hr.reallocate_one_iff hrow, hmem]

/-- In a run of calls that aim at their blocks the allocator and the history agree on an address if it
is less than 4 GiB above the base or not the alias of a live one, and only then. -/
theorem history_agrees_along_run {base : UInt64} {size : UInt32} {h₀ : O1Heap}
    (hnew : new base size = some h₀) (hfit : base.toNat + size.toNat ≤ 2 ^ 64) {ops : List Op}
    (hops : Along tracedStep Aimed ⟨h₀, []⟩ ops) (k : Nat) :
    ∃ s, run tracedStep ⟨h₀, []⟩ (ops.take k) = some s ∧ ∀ x, Agrees s.heap (x ∈ s.live) x ↔
        base.toNat ≤ x ∧ x < base.toNat + 2 ^ 32 ∨
          ∀ y ∈ s.live, s.heap.offsetOf x ≠ s.heap.offsetOf y := by
  obtain ⟨s, hrun, hs⟩ := run_invariant (Tracks base size) (fun s op hs hop => hs.step hfit hop)
    (Tracks.of_new hnew) (hops.take k)
  exact ⟨s, hrun, hs.agrees_iff⟩

/-- A run with a block that is moved and releases of addresses that are not live. -/
theorem history_agrees_moved :
    ∃ h₀, new 0x1000 4096 = some h₀ ∧ (0x1000 : UInt64).toNat + (4096 : UInt32).toNat ≤ 2 ^ 64 ∧
      Along tracedStep Aimed ⟨h₀, []⟩
        [.allocate 256, .allocate 256, .reallocate 0x1000 512, .free 0x1000, .free 0x10] ∧
      ∃ s, run tracedStep ⟨h₀, []⟩
          [.allocate 256, .allocate 256, .reallocate 0x1000 512, .free 0x1000, .free 0x10] = some s ∧
        ∀ x, Agrees s.heap (x ∈ s.live) x ↔
          (0x1000 : UInt64).toNat ≤ x ∧ x < (0x1000 : UInt64).toNat + 2 ^ 32 ∨
            ∀ y ∈ s.live, s.heap.offsetOf x ≠ s.heap.offsetOf y := by
  have hsome : (new 0x1000 4096).isSome = true := by decide +kernel
  have hops : Along tracedStep Aimed ⟨(new 0x1000 4096).get hsome, []⟩
      [.allocate 256, .allocate 256, .reallocate 0x1000 512, .free 0x1000, .free 0x10] := by
    decide +kernel +revert
  exact ⟨_, (Option.some_get hsome).symm, by decide, hops,
    history_agrees_along_run (Option.some_get hsome).symm (by decide) hops 5⟩

/-- An address 4 GiB above the only live one: it has a size and `free` releases the block for it, but
`reallocate` refuses it. -/
theorem history_disagrees_alias :
    ((new 0x1000 4096).bind fun h => run tracedStep ⟨h, []⟩ [.allocate 256]).map
      (fun s => (s.live, s.heap.allocationSize (0x1000 + 2 ^ 32),
        (s.heap.reallocate (0x1000 + 2 ^ 32) 1).map Prod.fst)) =
      some ([0x1000], some 256, some none) ∧ ((new 0x1000 4096).bind fun h => run tracedStep ⟨h, []⟩
        [.allocate 256, .free (0x1000 + 2 ^ 32)]).map
      (fun s => (s.live, s.heap.allocationSize 0x1000)) = some ([0x1000], none) := by
  decide +kernel

end Mwemu.O1Heap
