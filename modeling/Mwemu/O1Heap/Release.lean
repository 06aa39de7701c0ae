import Mwemu.O1Heap.Runs

/-!
# Release of every allocation

`free` refuses a block whose size is not a multiple of 256. Requests have such sizes, so only a block
that keeps a small rest when it grows at the end of the arena gets another one. In a run without such
calls every live allocation can be released, and when all are released the arena is one free block
again, as large as a new one for every request.
-/

namespace Mwemu.O1Heap

open Mwemu.Lib List

/-! ### Rows in which every used block can be released -/

/-- Every used block has a size that `free` accepts. -/
def Releasable (bs : List Block) : Prop :=
  ∀ b ∈ bs, b.used = true → b.size % 256 = 0

variable {bs : List Block}

theorem Releasable.release (hbs : Releasable bs) (o : Nat) : Releasable (release bs o) :=
  fun b hb hused => hbs b ((mem_release_used hused).mp hb).1 hused

theorem Releasable.freeRow (hbs : Releasable bs) (o : Nat) : Releasable (freeRow bs o) := by
  rw [O1Heap.freeRow]
  split_ifs
  · exact hbs.release o
  · exact hbs

variable {b : Block} {size : Nat}

theorem Releasable.take {l r : List Block} (hbs : Releasable (l ++ b :: r))
    (hsize : size % 256 = 0) : Releasable (l ++ takenBlocks b size ++ r) := by
  intro c hc hused
  rcases mem_append.mp hc with hc | hc
  · rcases mem_append.mp hc with hc | hc
    · exact hbs c (mem_append_left _ hc) hused
    rw [takenBlocks] at hc
    split_ifs at hc
    · simp only [mem_cons, not_mem_nil, or_false] at hc
      rcases hc with rfl | rfl
      · exact hsize
      · cases hused
    · rw [mem_singleton.mp hc]
      exact hsize
  · exact hbs c (mem_append_right _ (mem_cons_of_mem _ hc)) hused

theorem Releasable.resize {bs' : List Block} {c : Block} {total : Nat} (hbs : Releasable bs)
    (hresized : Resized bs b size c total bs') (hsize : size % 256 = 0)
    (htotal : size + 256 ≤ total ∨ total % 256 = 0) : Releasable bs' := by
  obtain ⟨l, rest, r, rfl, -, -, -, -, rfl⟩ := hresized
  intro d hd hused
  rcases mem_append.mp hd with hd | hd
  · rcases mem_append.mp hd with hd | hd
    · exact hbs d (by simp [hd]) hused
    rw [resizedBlocks] at hd
    split_ifs at hd with hsplit
    · simp only [mem_cons, not_mem_nil, or_false] at hd
      rcases hd with rfl | rfl
      · exact hsize
      · cases hused
    · rw [mem_singleton.mp hd]
      exact htotal.resolve_left hsplit
  · exact hbs d (by simp [hd]) hused

theorem Releasable.moved {l r : List Block} {c : Block} (hbs : Releasable (l ++ c :: r))
    (hsize : size % 256 = 0) (o : Nat) :
    Releasable (O1Heap.freeRow (l ++ takenBlocks c size ++ r) o) :=
  (hbs.take hsize).freeRow o

/-! ### Calls that keep the blocks releasable -/

/-- The call neither counts a used fragment nor keeps a small rest. -/
def Tidy (h : O1Heap) : Op → Prop
  | .reallocate address amount => ¬ CountsUsedNext h address amount ∧ ¬ AbsorbsTail h address amount
  | _ => True

instance {h : O1Heap} {op : Op} : Decidable (Tidy h op) :=
  match op with
  | .reallocate address amount =>
    inferInstanceAs (Decidable (¬ CountsUsedNext h address amount ∧ ¬ AbsorbsTail h address amount))
  | .allocate _ => .isTrue trivial
  | .free _ => .isTrue trivial

variable {h : O1Heap} {op : Op}

theorem Tidy.spares (hop : Tidy h op) : Spares h op := by
  cases op with
  | reallocate address amount => exact hop.1
  | allocate amount => trivial
  | free address => trivial

variable {ids : List Nat}

theorem Releasable.step {a : Option Nat} (hrow : Releasable (h.row ids)) (hop : Tidy h op)
    (hstep : RowStep h ids op a bs) : Releasable bs := by
  cases hstep with
  | taken hsize heq hfree hle => exact (heq ▸ hrow).take (fragmentSize_min hsize).2
  | full => exact hrow
  | freed => exact hrow.freeRow _
  | reallocated hresult =>
    cases hresult with
    | free => exact hrow.freeRow _
    | refused => exact hrow
    | resized ha hresize =>
      have hsize := (fragmentSize_min ha.size_ne).2
      cases hresize with
      | failed => exact hrow
      | moved heq => exact (heq ▸ hrow).moved hsize _
      | @inPlace _ total _ _ hresized htotal =>
        refine hrow.resize hresized hsize ?_
        rcases htotal with rfl | hle | ⟨hgrow, htakes⟩
        · exact .inr hsize
        · exact .inl hle
        · refine or_iff_not_imp_left.mpr fun hlt => ?_
          by_contra hodd
          exact hop.2 ⟨_, total, ha, hgrow, htakes, Nat.not_le.mp hlt, hodd⟩

/-- The heap is a row of blocks of the arena that can all be released. -/
def TidyArena (base : UInt64) (size : UInt32) (h : O1Heap) : Prop :=
  h.base = base.toNat ∧ h.diagnostics.capacity = size.toNat ∧
    ∃ ids, Rep h ids ∧ Releasable (h.row ids)

variable {base : UInt64}

theorem TidyArena.of_new {size : UInt32} (hnew : new base size = some h) :
    TidyArena base size h := by
  obtain ⟨hbase, hdiagnostics, hr, hrow⟩ := new_eq_some hnew
  refine ⟨hbase, by rw [hdiagnostics], [0], hr, ?_⟩
  rw [hrow]
  intro b hb hused
  rw [mem_singleton.mp hb] at hused
  cases hused

theorem TidyArena.of_becomes {size : UInt32} {h' : O1Heap} (ha : TidyArena base size h)
    (hbecomes : Becomes h h' bs) (hbs : Releasable bs) : TidyArena base size h' := by
  obtain ⟨ids, hr, rfl⟩ := hbecomes.rep
  exact ⟨hbecomes.base.trans ha.1, hbecomes.capacity.trans ha.2.1, ids, hr, hbs⟩

theorem TidyArena.step {size : UInt32} (ha : TidyArena base size h) (hop : Tidy h op) :
    ∃ h', h.step op = some h' ∧ TidyArena base size h' := by
  obtain ⟨ids, hr, hrow⟩ := ha.2.2
  obtain ⟨a, h', bs, hcall, hbecomes, hstep⟩ := hr.step hop.spares
  exact ⟨h', hcall, ha.of_becomes hbecomes (hrow.step hop hstep)⟩

/-! ### One release -/

variable {cap : Nat}

theorem usedTotal_release (hlayout : Layout cap bs) (hb : b ∈ bs) (hused : b.used = true) :
    usedTotal (release bs b.offset) + b.size = usedTotal bs := by
  obtain ⟨l, r, rfl⟩ := append_of_mem hb
  have hother : ∀ cs : List Block, (∀ c ∈ cs, c.offset ≠ b.offset) →
      (cs.filter fun c => c.used && decide (c.offset ≠ b.offset)) = cs.filter Block.used := by
    intro cs hcs
    refine filter_congr fun c hc => ?_
    rw [decide_eq_true (hcs c hc), Bool.and_true]
  obtain ⟨-, hr, hl⟩ := pairwise_append.mp hlayout.pairwise_offset_ne
  have hleft : ∀ c ∈ l, c.offset ≠ b.offset := fun c hc => hl c hc b mem_cons_self
  have hright : ∀ c ∈ r, c.offset ≠ b.offset := fun c hc => ((pairwise_cons.mp hr).1 c hc).symm
  rw [usedTotal, filter_used_release, filter_append, filter_cons_of_neg (by simp),
    hother l hleft, hother r hright, ← filter_append, ← usedTotal, usedTotal_append,
    usedTotal_append, usedTotal_cons, if_pos hused]
  omega

variable {base : UInt64} {size : UInt32} {h : O1Heap}

theorem mem_freeRow_used {o : Nat} (hbs : Releasable bs) (hused : b.used = true) :
    b ∈ freeRow bs o ↔ b ∈ bs ∧ b.offset ≠ o := by
  rw [freeRow]
  split_ifs with hex
  · exact mem_release_used hused
  · refine (and_iff_left_of_imp fun hb ho => ?_).symm
    exact hex ⟨b, hb, hused, ho, hbs b hb hused⟩

theorem Rep.allocationSize_freed {h' : O1Heap} (hr : Rep h ids) (hrow : Releasable (h.row ids))
    {a : Nat} (hbecomes : Becomes h h' (freeRow (h.row ids) (h.offsetOf a))) (b n : Nat) :
    h'.allocationSize b = some n ↔ h.allocationSize b = some n ∧ h.offsetOf b ≠ h.offsetOf a := by
  obtain ⟨ids', hr', hrow'⟩ := hbecomes.rep
  have hoffset : h'.offsetOf b = h.offsetOf b := by rw [offsetOf, offsetOf, hbecomes.base]
  rw [hr'.allocationSize_eq_some, hr.allocationSize_eq_some, hrow', mem_freeRow_used hrow rfl,
    hbecomes.base, hoffset, and_assoc]

theorem TidyArena.free_live (ha : TidyArena base size h) {a n : Nat}
    (hlive : h.allocationSize a = some n) : ∃ h', h.free a = some h' ∧ h'.allocationSize a = none ∧
      h'.diagnostics.allocated + n = h.diagnostics.allocated ∧
      ∀ b, b ≠ a → a < base.toNat + 2 ^ 32 → b < base.toNat + 2 ^ 32 →
        h'.allocationSize b = h.allocationSize b := by
  obtain ⟨hbase, -, ids, hr, hrow⟩ := ha
  obtain ⟨hle, hmem⟩ := hr.allocationSize_eq_some.mp hlive
  obtain ⟨h', hfree, hbecomes⟩ := hr.becomes_free a
  have hsize := hr.allocationSize_freed hrow hbecomes
  obtain ⟨ids', hr', hrow'⟩ := hbecomes.rep
  refine ⟨h', hfree, ?_, ?_, fun b hne halt hblt => ?_⟩
  · rw [Option.eq_none_iff_forall_ne_some]
    intro m hm
    exact ((hsize a m).mp hm).2 rfl
  · rw [hr'.allocated, hrow', hr.allocated, freeRow, if_pos ⟨_, hmem, rfl, rfl, hrow _ hmem rfl⟩]
    exact usedTotal_release hr.layout hmem rfl
  · -- two addresses of the window have one offset only when they are the same
    refine Option.ext fun m => ?_
    rw [hsize]
    refine and_iff_left_of_imp fun hb => ?_
    have hle' := (hr.allocationSize_eq_some.mp hb).1
    rw [offsetOf, offsetOf]
    omega

/-! ### Release of all -/

theorem TidyArena.run_free (ha : TidyArena base size h) (hr : Rep h ids)
    (hrow : Releasable (h.row ids)) (as : List Nat) :
    ∃ h' ids', run O1Heap.step h (as.map Op.free) = some h' ∧ TidyArena base size h' ∧ Rep h' ids' ∧
      ∀ b ∈ h'.row ids', b.used = true → b ∈ h.row ids ∧ ∀ a ∈ as, b.offset ≠ h.offsetOf a := by
  induction as generalizing h ids with
  | nil => exact ⟨h, ids, rfl, ha, hr, fun b hb _ => ⟨hb, nofun⟩⟩
  | cons a as ih =>
    obtain ⟨h₁, hfree, hbecomes⟩ := hr.becomes_free a
    have ha₁ := ha.of_becomes hbecomes (hrow.freeRow _)
    obtain ⟨ids₁, hr₁, hrow₁⟩ := hbecomes.rep
    obtain ⟨h', ids', hrun, ha', hr', hleft⟩ := ih ha₁ hr₁ (hrow₁ ▸ hrow.freeRow _)
    refine ⟨h', ids', ?_, ha', hr', fun b hb hused => ?_⟩
    · rw [map_cons, run, O1Heap.step, hfree]
      exact hrun
    obtain ⟨hb₁, hoffsets⟩ := hleft b hb hused
    rw [hrow₁, mem_freeRow_used hrow hused] at hb₁
    refine ⟨hb₁.1, forall_mem_cons.mpr ⟨hb₁.2, fun c hc => ?_⟩⟩
    have hoffset : h₁.offsetOf c = h.offsetOf c := by rw [offsetOf, offsetOf, hbecomes.base]
    exact hoffset ▸ hoffsets c hc

theorem Layout.single_of_free (hlayout : Layout cap bs) (hcap : 256 ≤ cap)
    (hfree : ∀ b ∈ bs, b.used = false) :
    ∃ stop, bs = [⟨0, stop, false⟩] ∧ stop / 256 = cap / 256 := by
  obtain ⟨stop, htiles, -, hdiv⟩ := hlayout.tiles
  cases bs with
  | nil =>
    obtain rfl : 0 = stop := htiles
    omega
  | cons b bs =>
    cases bs with
    | nil =>
      obtain ⟨hoffset, hstop⟩ := htiles
      refine ⟨stop, ?_, hdiv⟩
      have hstop : 0 + b.size = stop := hstop
      have hb := hfree b mem_cons_self
      rw [← hstop, Nat.zero_add, ← hoffset, ← hb]
    | cons c cs =>
      -- neighbours are not both free
      have hbc := (isChain_cons_cons.mp hlayout.apart).1
      rcases hbc with hb | hc
      · rw [hfree b (by simp)] at hb
        cases hb
      · rw [hfree c (by simp)] at hc
        cases hc

theorem fits_single_iff {stop amount : Nat} (hdiv : stop / 256 = cap / 256) :
    Fits [⟨0, stop, false⟩] amount ↔ Fits [⟨0, cap, false⟩] amount := by
  rw [Fits, Fits]
  refine and_congr_right fun _ => and_congr_right fun hsize => ?_
  have hmod := (fragmentSize_min hsize).2
  have hle : fragmentSize amount ≤ stop ↔ fragmentSize amount ≤ cap := by omega
  simp only [mem_singleton, exists_eq_left, hle]

/-- When every live address has been released, nothing is in use and the arena serves the requests of
a new one. -/
theorem TidyArena.free_all {h₀ : O1Heap} (hnew : new base size = some h₀) (ha : TidyArena base size h)
    {as : List Nat} (has : ∀ a n, h.allocationSize a = some n → a < base.toNat + 2 ^ 32 → a ∈ as) :
    ∃ h', run O1Heap.step h (as.map Op.free) = some h' ∧ h'.diagnostics.allocated = 0 ∧
      ∀ m, (∃ a h'', h'.allocate m = some (some a, h'')) ↔
        ∃ a h'', h₀.allocate m = some (some a, h'') := by
  obtain ⟨ids, hr, hrow⟩ := ha.2.2
  obtain ⟨h', ids', hrun, ha', hr', hleft⟩ := ha.run_free hr hrow as
  have hfree : ∀ b ∈ h'.row ids', b.used = false := by
    intro b hb
    by_contra hused
    rw [Bool.not_eq_false] at hused
    obtain ⟨hmem, hoffsets⟩ := hleft b hb hused
    -- the block is live at the base plus its offset, which is in the list
    obtain ⟨hlt, hlive⟩ := hr.live_of_mem hmem hused
    refine hoffsets (h.base + b.offset) (has _ b.size hlive ?_) (offsetOf_base_add hlt).symm
    rw [ha.1]
    exact Nat.add_lt_add_left hlt _
  obtain ⟨-, hdiagnostics, hr₀, hrow₀⟩ := new_eq_some hnew
  have hcapacity := ha'.2.1
  have hmin : 512 ≤ size.toNat := by
    rw [new] at hnew
    split_ifs at hnew with hsmall
    exact Nat.not_lt.mp hsmall
  obtain ⟨stop, hsingle, hdiv⟩ := hr'.layout.single_of_free (by omega) hfree
  refine ⟨h', hrun, ?_, fun m => ?_⟩
  · rw [hr'.allocated, hsingle]
    rfl
  · rw [hr'.allocate_isSome_iff, hr₀.allocate_isSome_iff, hsingle, hrow₀]
    exact fits_single_iff (hdiv.trans (by rw [hcapacity]))

/-- In a run of tidy calls every live allocation can be released alone and all of them together. -/
theorem free_releases_along_run {base : UInt64} {size : UInt32} {h₀ : O1Heap}
    (hnew : new base size = some h₀) {ops : List Op} (hops : Along step Tidy h₀ ops) (k : Nat) :
    ∃ h, run step h₀ (ops.take k) = some h ∧ (∀ a n, h.allocationSize a = some n →
        ∃ h', h.free a = some h' ∧ h'.allocationSize a = none ∧
          h'.diagnostics.allocated + n = h.diagnostics.allocated ∧
          ∀ b, b ≠ a → a < base.toNat + 2 ^ 32 → b < base.toNat + 2 ^ 32 →
            h'.allocationSize b = h.allocationSize b) ∧
      ∀ as : List Nat, (∀ a n, h.allocationSize a = some n → a < base.toNat + 2 ^ 32 → a ∈ as) →
        ∃ h', run step h (as.map Op.free) = some h' ∧ h'.diagnostics.allocated = 0 ∧
          ∀ m, (∃ a h'', h'.allocate m = some (some a, h'')) ↔
            ∃ a h'', h₀.allocate m = some (some a, h'') := by
  obtain ⟨h, hrun, ha⟩ := run_invariant (TidyArena base size) (fun s op hs hop => hs.step hop)
    (TidyArena.of_new hnew) (hops.take k)
  exact ⟨h, hrun, fun a n hlive => ha.free_live hlive, fun as has => ha.free_all hnew has⟩

/-- A run in which a block grows to the end of the arena and leaves a rest of 512 bytes. -/
theorem free_releases_growing : ∃ h₀, new 0x1000 1536 = some h₀ ∧
      Along step Tidy h₀ [.allocate 256, .reallocate 0x1000 1024] ∧
      ∃ h, run step h₀ [.allocate 256, .reallocate 0x1000 1024] = some h ∧
        (∀ a n, h.allocationSize a = some n →
          ∃ h', h.free a = some h' ∧ h'.allocationSize a = none ∧
            h'.diagnostics.allocated + n = h.diagnostics.allocated ∧
            ∀ b, b ≠ a → a < (0x1000 : UInt64).toNat + 2 ^ 32 →
              b < (0x1000 : UInt64).toNat + 2 ^ 32 → h'.allocationSize b = h.allocationSize b) ∧
        ∀ as : List Nat,
          (∀ a n, h.allocationSize a = some n → a < (0x1000 : UInt64).toNat + 2 ^ 32 → a ∈ as) →
          ∃ h', run step h (as.map Op.free) = some h' ∧ h'.diagnostics.allocated = 0 ∧
            ∀ m, (∃ a h'', h'.allocate m = some (some a, h'')) ↔
              ∃ a h'', h₀.allocate m = some (some a, h'') := by
  have hsome : (new 0x1000 1536).isSome = true := by decide +kernel
  have hops : Along step Tidy ((new 0x1000 1536).get hsome)
      [.allocate 256, .reallocate 0x1000 1024] := by
    decide +kernel +revert
  exact ⟨_, (Option.some_get hsome).symm, hops,
    free_releases_along_run (Option.some_get hsome).symm hops 2⟩

/-- A block that grows to the end of an arena of 1124 bytes keeps the last 100 and is not released. -/
theorem free_refuses_absorbed_tail :
    ((new 0x1000 1124).bind fun h => run step h [.allocate 256, .reallocate 0x1000 1024]).map
      (fun h => (h.allocationSize 0x1000, h.diagnostics.allocated)) = some (some 1124, 1124) ∧
    ((new 0x1000 1124).bind fun h => run step h
        [.allocate 256, .reallocate 0x1000 1024, .free 0x1000]).map
      (fun h => (h.allocationSize 0x1000, h.diagnostics.allocated)) = some (some 1124, 1124) := by
  decide +kernel

end Mwemu.O1Heap
