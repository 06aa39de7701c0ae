import Mathlib.Algebra.BigOperators.Group.Finset.Basic
import Mwemu.O1Heap.Runs

/-!
# What the allocator counts

Only a few functions touch the counters: an allocation and a fragment that grows add their bytes and
raise the peak, a release and a fragment that shrinks take theirs off. All others pass the counters
on. So every call raises the peak to what is allocated after it, except one that moves a fragment,
which counts both copies for a while.
-/

namespace Mwemu.O1Heap

open Mwemu.Lib List Option Nat

variable {h h' h₁ : O1Heap} {id amount : Nat}

/-! ### Functions that pass the counters on -/

theorem rebin_diagnostics (hcall : h.rebin id = some h') : h'.diagnostics = h.diagnostics := by
  rw [rebin] at hcall
  dsimp only at hcall
  split_ifs at hcall <;> cases hcall <;> rfl

theorem unbin_diagnostics (hcall : h.unbin id = some h') : h'.diagnostics = h.diagnostics := by
  rw [unbin] at hcall
  dsimp only at hcall
  split_ifs at hcall <;> cases hcall <;> rfl

variable {size : Nat}

theorem splitOff_diagnostics {offset leftover : Nat} {after : Option Nat}
    (hcall : h.splitOff id size offset leftover after = some h') :
    h'.diagnostics = h.diagnostics := by
  have hrebin := rebin_diagnostics hcall
  exact hrebin

theorem retire_diagnostics (hcall : h.retire id = some h') : h'.diagnostics = h.diagnostics := by
  rw [retire, map_eq_some_iff] at hcall
  obtain ⟨h₁, hunbin, rfl⟩ := hcall
  exact (unbin_diagnostics hunbin : h₁.diagnostics = _)

theorem elim_diagnostics {next : Option Nat} {f : Nat → Option O1Heap}
    (hf : ∀ i h', f i = some h' → h'.diagnostics = h.diagnostics)
    (hcall : next.elim (some h) f = some h') : h'.diagnostics = h.diagnostics := by
  cases next with
  | none =>
    cases hcall
    rfl
  | some i => exact hf i h' hcall

theorem coalesce_diagnostics (hcall : h.coalesce id = some h') : h'.diagnostics = h.diagnostics := by
  rw [coalesce] at hcall
  split at hcall
  · obtain ⟨h₁, hprev, hcall⟩ := bind_eq_some_iff.mp hcall
    obtain ⟨h₂, hnext, hcall⟩ := bind_eq_some_iff.mp hcall
    dsimp only at hcall
    split_ifs at hcall with heq
    · cases hcall
    · exact (rebin_diagnostics hcall).trans ((unbin_diagnostics hnext).trans (unbin_diagnostics hprev))
  · obtain ⟨h₁, hprev, hcall⟩ := bind_eq_some_iff.mp hcall
    dsimp only at hcall
    split_ifs at hcall with heq
    · cases hcall
    · have hsame := unbin_diagnostics hprev
      exact (rebin_diagnostics hcall).trans hsame
  · obtain ⟨h₁, hnext, hcall⟩ := bind_eq_some_iff.mp hcall
    dsimp only at hcall
    split_ifs at hcall with heq
    · cases hcall
    · have hsame := unbin_diagnostics hnext
      exact (rebin_diagnostics hcall).trans hsame
  · exact rebin_diagnostics hcall

/-! ### Functions that count -/

def Diagnostics.add (d : Diagnostics) (amount : Nat) : Diagnostics :=
  { d with
    allocated := d.allocated + amount
    peakAllocated := max d.peakAllocated (d.allocated + amount) }

def Diagnostics.sub (d : Diagnostics) (amount : Nat) : Diagnostics :=
  { d with allocated := d.allocated - amount }

theorem takeFragment_diagnostics (hcall : h.takeFragment id size = some h') :
    h'.diagnostics = h.diagnostics.add size := by
  rw [takeFragment] at hcall
  split_ifs at hcall
  · obtain ⟨h₁, hsplit, rfl⟩ := map_eq_some_iff.mp hcall
    have hsame := splitOff_diagnostics hsplit
    exact congrArg (Diagnostics.add · size) hsame
  · cases hcall
    rfl

theorem allocate_diagnostics {r : Option Nat} (hcall : h.allocate amount = some (r, h')) :
    (h'.diagnostics = h.diagnostics ∨ h'.diagnostics = h.countOom.diagnostics) ∨
      (h.smallestBin (log2Ceil (fragmentSize amount / fragmentSizeMin))).isSome = true ∧
        h'.diagnostics = h.diagnostics.add (fragmentSize amount) := by
  rw [allocate] at hcall
  dsimp only at hcall
  split_ifs at hcall
  · cases hcall
    exact .inl (.inl rfl)
  · cases hcall
    exact .inl (.inr rfl)
  cases hsearch : h.smallestBin (log2Ceil (fragmentSize amount / fragmentSizeMin)) with
  | none =>
    rw [hsearch] at hcall
    cases hcall
    exact .inl (.inl rfl)
  | some idx =>
    rw [hsearch] at hcall
    obtain ⟨id, -, hcall⟩ := bind_eq_some_iff.mp hcall
    obtain ⟨h₁, hunbin, hcall⟩ := bind_eq_some_iff.mp hcall
    obtain ⟨h₂, htake, hcall⟩ := bind_eq_some_iff.mp hcall
    cases hcall
    refine .inr ⟨rfl, (takeFragment_diagnostics htake).trans ?_⟩
    rw [unbin_diagnostics hunbin]

variable {address : Nat}

theorem free_diagnostics (hcall : h.free address = some h') :
    ∃ n, h'.diagnostics = h.diagnostics.sub n := by
  rw [free] at hcall
  split at hcall
  · cases hcall
    exact ⟨0, rfl⟩
  dsimp only at hcall
  split_ifs at hcall
  · cases hcall
    exact ⟨0, rfl⟩
  · cases hcall
    exact ⟨0, rfl⟩
  · cases hcall
    exact ⟨0, rfl⟩
  · exact ⟨_, coalesce_diagnostics hcall⟩

variable {r : Option ReallocResult}

theorem shrink_diagnostics (hcall : h.shrink address id size = some (r, h')) :
    ∃ n, h'.diagnostics = h.diagnostics.sub n := by
  rw [shrink] at hcall
  dsimp only at hcall
  split_ifs at hcall
  · cases hcall
    exact ⟨0, rfl⟩
  · cases hcall
    exact ⟨0, rfl⟩
  obtain ⟨h₁, hretire, hcall⟩ := bind_eq_some_iff.mp hcall
  obtain ⟨h₂, hsplit, hcall⟩ := bind_eq_some_iff.mp hcall
  cases hcall
  exact ⟨_, (splitOff_diagnostics hsplit).trans
    (elim_diagnostics (fun i h' hi => retire_diagnostics hi) hretire)⟩

theorem growForward_diagnostics {next : Nat}
    (hcall : h.growForward address id next size = some (r, h')) :
    ∃ n, h'.diagnostics = h.diagnostics.add n := by
  obtain ⟨h₁, hretire, hcall⟩ := bind_eq_some_iff.mp hcall
  dsimp only at hcall
  split_ifs at hcall
  · obtain ⟨h₂, hsplit, hcall⟩ := bind_eq_some_iff.mp hcall
    cases hcall
    refine ⟨_, congrArg (Diagnostics.add · _) ?_⟩
    exact (splitOff_diagnostics hsplit).trans (retire_diagnostics hretire)
  · cases hcall
    exact ⟨_, congrArg (Diagnostics.add · _) (retire_diagnostics hretire : h₁.diagnostics = _)⟩

theorem growBackward_diagnostics {prev : Nat}
    (hcall : h.growBackward address id prev size = some (r, h')) :
    ∃ n, h'.diagnostics = h.diagnostics.add n := by
  obtain ⟨h₁, hprev, hcall⟩ := bind_eq_some_iff.mp hcall
  obtain ⟨h₂, hnext, hcall⟩ := bind_eq_some_iff.mp hcall
  have hsame : h₂.diagnostics = h.diagnostics :=
    (elim_diagnostics (fun i h' hi => unbin_diagnostics hi) hnext).trans (unbin_diagnostics hprev)
  dsimp only at hcall
  split_ifs at hcall
  · obtain ⟨h₃, hgrow, hcall⟩ := bind_eq_some_iff.mp hcall
    obtain ⟨h₄, hsplit, rfl⟩ := map_eq_some_iff.mp hgrow
    cases hcall
    rw [diagnostics_settleBackward]
    exact ⟨_, congrArg (Diagnostics.add · _) ((splitOff_diagnostics hsplit).trans hsame)⟩
  · cases hcall
    rw [diagnostics_settleBackward]
    exact ⟨_, congrArg (Diagnostics.add · _) (hsame : h₂.diagnostics = _)⟩

/-! ### The peak -/

/-- The peak is raised to what is allocated now. -/
def Raises (d d' : Diagnostics) : Prop :=
  d.allocated ≤ d.peakAllocated → d'.peakAllocated = max d.peakAllocated d'.allocated

theorem Raises.add (d : Diagnostics) (n : Nat) : Raises d (d.add n) := fun _ => rfl

theorem Raises.sub (d : Diagnostics) (n : Nat) : Raises d (d.sub n) := fun hle =>
  (max_eq_left (le_trans (sub_le _ _) hle)).symm

theorem Raises.of_eq {d d' : Diagnostics} (hallocated : d'.allocated = d.allocated)
    (hpeak : d'.peakAllocated = d.peakAllocated) : Raises d d' := fun hle => by
  rw [hallocated, hpeak, max_eq_left hle]

/-- The call moves a fragment, and both copies together are more than the peak. -/
def CountsTwice (h : O1Heap) (address amount : Nat) : Prop :=
  ∃ id, Accepts h address amount id ∧ (h.nodes id).size < fragmentSize amount ∧
    h.taken id (fragmentSize amount) = none ∧
    (h.smallestBin (log2Ceil (fragmentSize amount / fragmentSizeMin))).isSome = true ∧
    h.diagnostics.peakAllocated < h.diagnostics.allocated + fragmentSize amount

instance {h : O1Heap} {address amount : Nat} : Decidable (CountsTwice h address amount) :=
  decidable_of_iff
    (∃ id ∈ h.hashes.get (address - h.base), Accepts h address amount id ∧
      (h.nodes id).size < fragmentSize amount ∧ h.taken id (fragmentSize amount) = none ∧
      (h.smallestBin (log2Ceil (fragmentSize amount / fragmentSizeMin))).isSome = true ∧
      h.diagnostics.peakAllocated < h.diagnostics.allocated + fragmentSize amount)
    ⟨fun ⟨id, _, hid⟩ => ⟨id, hid⟩, fun ⟨id, hid⟩ => ⟨id, hid.1.get, hid⟩⟩

theorem allocate_raises {r : Option Nat} (hcall : h.allocate amount = some (r, h')) :
    Raises h.diagnostics h'.diagnostics := by
  rcases allocate_diagnostics hcall with (heq | heq) | ⟨-, heq⟩
  · rw [heq]
    exact .of_eq rfl rfl
  · rw [heq]
    exact .of_eq rfl rfl
  · rw [heq]
    exact .add _ _

theorem free_raises (hcall : h.free address = some h') : Raises h.diagnostics h'.diagnostics := by
  obtain ⟨n, heq⟩ := free_diagnostics hcall
  rw [heq]
  exact .sub _ _

theorem moveAway_raises {copySize : Nat} (hcall : h.moveAway address amount copySize = some (r, h'))
    (hpeak : (h.smallestBin (log2Ceil (fragmentSize amount / fragmentSizeMin))).isSome = true →
      h.diagnostics.allocated + fragmentSize amount ≤ h.diagnostics.peakAllocated) :
    Raises h.diagnostics h'.diagnostics := by
  obtain ⟨⟨a, h₁⟩, hallocate, hcall⟩ := bind_eq_some_iff.mp hcall
  cases a with
  | none =>
    cases hcall
    exact allocate_raises hallocate
  | some newAddr =>
    obtain ⟨h₂, hfree, hcall⟩ := bind_eq_some_iff.mp hcall
    cases hcall
    obtain ⟨n, heq⟩ := free_diagnostics hfree
    intro hle
    have hsame : h₁.diagnostics.peakAllocated = h.diagnostics.peakAllocated ∧
        h₁.diagnostics.allocated ≤ h.diagnostics.peakAllocated := by
      rcases allocate_diagnostics hallocate with (heq₁ | heq₁) | ⟨hfound, heq₁⟩
      · rw [heq₁]
        exact ⟨rfl, hle⟩
      · rw [heq₁]
        exact ⟨rfl, hle⟩
      · rw [heq₁]
        exact ⟨max_eq_left (hpeak hfound), hpeak hfound⟩
    rw [heq]
    have hsub := le_trans (sub_le h₁.diagnostics.allocated n) hsame.2
    exact hsame.1.trans (max_eq_left hsub).symm

theorem taken_eq_none (hforward : ((h.freeNext id).filter fun _ =>
      decide (size ≤ (h.nodes id).size + h.sizeOf (h.nodes id).next)) = none)
    (hbackward : ((h.freePrev id).filter fun _ =>
      decide (size ≤ h.sizeOf (h.upgrade (h.nodes id).prev) + (h.nodes id).size +
        h.sizeOf (h.nodes id).next)) = none) : h.taken id size = none := by
  rw [filter_eq_none_iff] at hforward hbackward
  rw [taken, or_eq_none_iff, filter_eq_none_iff, filter_eq_none_iff]
  constructor
  · intro total htotal
    obtain ⟨next, hnext, rfl⟩ := map_eq_some_iff.mp htotal
    rw [← sizeOf_next_of_freeNext hnext]
    exact hforward next hnext
  · intro total htotal
    obtain ⟨prev, hprev, rfl⟩ := map_eq_some_iff.mp htotal
    rw [← sizeOf_prev_of_freePrev hprev]
    exact hbackward prev hprev

theorem resize_raises (hcall : h.resize address id amount = some (r, h'))
    (hpeak : (h.nodes id).size < fragmentSize amount → h.taken id (fragmentSize amount) = none →
      (h.smallestBin (log2Ceil (fragmentSize amount / fragmentSizeMin))).isSome = true →
      h.diagnostics.allocated + fragmentSize amount ≤ h.diagnostics.peakAllocated) :
    Raises h.diagnostics h'.diagnostics := by
  rw [resize] at hcall
  split_ifs at hcall with hle
  · obtain ⟨n, heq⟩ := shrink_diagnostics hcall
    rw [heq]
    exact .sub _ _
  split at hcall
  · obtain ⟨n, heq⟩ := growForward_diagnostics hcall
    rw [heq]
    exact .add _ _
  rename_i hforward
  split at hcall
  · obtain ⟨n, heq⟩ := growBackward_diagnostics hcall
    rw [heq]
    exact .add _ _
  · rename_i hbackward
    exact moveAway_raises hcall (hpeak (not_le.mp hle) (taken_eq_none hforward hbackward))

theorem step_raises {op : Op} (hcall : h.step op = some h')
    (hop : ∀ address amount, op = .reallocate address amount → ¬ CountsTwice h address amount) :
    Raises h.diagnostics h'.diagnostics := by
  cases op with
  | allocate amount =>
    obtain ⟨⟨r, h₁⟩, hallocate, rfl⟩ := map_eq_some_iff.mp hcall
    exact allocate_raises hallocate
  | free address => exact free_raises hcall
  | reallocate address amount =>
    obtain ⟨⟨r, h₁⟩, hreallocate, rfl⟩ := map_eq_some_iff.mp hcall
    by_cases hamount : amount = 0
    · rw [reallocate, if_pos hamount] at hreallocate
      obtain ⟨h₂, hfree, heq⟩ := map_eq_some_iff.mp hreallocate
      cases heq
      exact free_raises hfree
    by_cases hex : ∃ id, Accepts h address amount id
    · obtain ⟨id, ha⟩ := hex
      rw [ha.reallocate_eq] at hreallocate
      have hraises := resize_raises hreallocate fun hgrow htaken hfound =>
        not_lt.mp fun hlt => hop address amount rfl ⟨id, ha, hgrow, htaken, hfound, hlt⟩
      exact hraises
    · obtain ⟨h₂, hrefused, hsame⟩ := reallocate_refused hamount hex
      rw [hrefused] at hreallocate
      cases hreallocate
      rcases hsame with rfl | rfl
      · exact .of_eq rfl rfl
      · exact .of_eq rfl rfl

/-! ### Counters along a run -/

theorem total_filter_le (bs : List Block) : usedTotal bs ≤ Layout.total bs := by
  induction bs with
  | nil => exact le_refl _
  | cons b bs ih =>
    rw [usedTotal_cons, Layout.total, map_cons, sum_cons]
    have hb : (if b.used then b.size else 0) ≤ b.size := by split_ifs <;> omega
    exact Nat.add_le_add hb ih

theorem Rep.allocated_le {ids : List Nat} (hr : Rep h ids) :
    h.diagnostics.allocated ≤ h.diagnostics.capacity := by
  obtain ⟨stop, htiles, hle, -⟩ := hr.layout.tiles
  have hstop := Layout.stop_eq_add_total htiles
  calc h.diagnostics.allocated = usedTotal (h.row ids) := hr.allocated
    _ ≤ Layout.total (h.row ids) := total_filter_le _
    _ = stop := by rw [hstop, zero_add]
    _ ≤ h.diagnostics.capacity := hle

theorem Rep.sum_allocationSize {ids : List Nat} (hr : Rep h ids) :
    ∑ a ∈ Finset.range (h.base + 2 ^ 32), (h.allocationSize a).getD 0 =
      h.diagnostics.allocated := by
  set used := (h.row ids).filter Block.used with hdef
  have hmem : ∀ b ∈ used, b.offset < 2 ^ 32 ∧
      h.allocationSize (h.base + b.offset) = some b.size := by
    intro b hb
    obtain ⟨hrow, hused⟩ := mem_filter.mp hb
    exact hr.live_of_mem hrow hused
  have hnodup : (used.map fun b => h.base + b.offset).Nodup := by
    have hne := hr.layout.pairwise_offset_ne.filter Block.used
    exact hne.map _ fun b c hne heq => hne (add_left_cancel heq)
  calc ∑ a ∈ Finset.range (h.base + 2 ^ 32), (h.allocationSize a).getD 0
      = ∑ a ∈ (used.map fun b => h.base + b.offset).toFinset, (h.allocationSize a).getD 0 := by
        symm
        refine Finset.sum_subset (fun a ha => ?_) (fun a ha hout => ?_)
        · obtain ⟨b, hb, rfl⟩ := mem_map.mp (mem_toFinset.mp ha)
          have hlt := (hmem b hb).1
          exact Finset.mem_range.mpr (by omega)
        cases hsize : h.allocationSize a with
        | none => rfl
        | some n =>
          obtain ⟨hle, hrow⟩ := hr.allocationSize_eq_some.mp hsize
          have hused : (⟨h.offsetOf a, n, true⟩ : Block) ∈ used := mem_filter.mpr ⟨hrow, rfl⟩
          refine absurd (List.mem_toFinset.mpr (mem_map.mpr ⟨_, hused, ?_⟩)) hout
          have hlt := Finset.mem_range.mp ha
          change h.base + h.offsetOf a = a
          rw [offsetOf]
          omega
    _ = ((used.map fun b => h.base + b.offset).map fun a => (h.allocationSize a).getD 0).sum :=
        sum_toFinset _ hnodup
    _ = (used.map Block.size).sum := by
        rw [List.map_map]
        congr 1
        refine List.map_congr_left fun b hb => ?_
        rw [Function.comp_apply, (hmem b hb).2, getD_some]
    _ = h.diagnostics.allocated := hr.allocated.symm

/-- The call neither counts a used fragment nor two copies of one. -/
def CountsOnce (h : O1Heap) (op : Op) : Prop :=
  Spares h op ∧ ∀ address amount, op = .reallocate address amount → ¬ CountsTwice h address amount

instance {h : O1Heap} {op : Op} : Decidable (CountsOnce h op) :=
  match op with
  | .reallocate address amount =>
    decidable_of_iff (Spares h (.reallocate address amount) ∧ ¬ CountsTwice h address amount)
      (and_congr_right fun _ => ⟨fun hno a n heq => by cases heq; exact hno,
        fun hno => hno address amount rfl⟩)
  | .allocate _ => .isTrue ⟨trivial, nofun⟩
  | .free _ => .isTrue ⟨trivial, nofun⟩

/-- In a run whose calls count every fragment once, the counters are those of the live allocations. -/
theorem counters_along_run {base : UInt64} {size : UInt32} {h₀ : O1Heap}
    (hnew : new base size = some h₀) {ops : List Op} (hops : Along step CountsOnce h₀ ops) (k : Nat) :
    ∃ h, run step h₀ (ops.take k) = some h ∧ h.diagnostics.allocated =
        ∑ a ∈ Finset.range (base.toNat + 2 ^ 32), (h.allocationSize a).getD 0 ∧
      h.diagnostics.allocated ≤ h.diagnostics.capacity ∧
      IsGreatest {n | ∃ j ≤ k, ∃ t, run step h₀ (ops.take j) = some t ∧ t.diagnostics.allocated = n}
        h.diagnostics.peakAllocated := by
  have hstart : h₀.diagnostics.peakAllocated = h₀.diagnostics.allocated := by
    rw [(new_eq_some hnew).2.1]
  -- the peak has been raised to what is allocated, in every state
  obtain ⟨h, hrun, ⟨⟨hbase, -, ids, hr⟩, -⟩, hpeak⟩ := run_greatest
    (fun h => Arena base size h ∧ h.diagnostics.allocated ≤ h.diagnostics.peakAllocated)
    (fun h => h.diagnostics.allocated) (fun h => h.diagnostics.peakAllocated)
    (fun s op hs hop => by
      obtain ⟨s', hs', harena⟩ := hs.1.step hop.1
      have hraised := step_raises hs' hop.2 hs.2
      exact ⟨s', hs', ⟨harena, hraised ▸ le_max_right _ _⟩, hraised⟩)
    ⟨arena_new hnew, le_of_eq hstart.symm⟩ hstart hops k
  refine ⟨h, hrun, ?_, hr.allocated_le, hpeak⟩
  rw [← hbase, hr.sum_allocationSize]

/-- A block is moved after more has been in use than both of its copies. -/
theorem counters_moved_below_peak : ∃ h₀, new 0x1000 4096 = some h₀ ∧
      Along step CountsOnce h₀ [.allocate 256, .allocate 256, .allocate 1024, .free 0x1200,
        .reallocate 0x1000 512] ∧
      ∃ h, run step h₀ [.allocate 256, .allocate 256, .allocate 1024, .free 0x1200,
          .reallocate 0x1000 512] = some h ∧
        h.diagnostics.allocated = ∑ a ∈ Finset.range ((0x1000 : UInt64).toNat + 2 ^ 32),
          (h.allocationSize a).getD 0 ∧ h.diagnostics.allocated ≤ h.diagnostics.capacity ∧
        IsGreatest {n | ∃ j ≤ 5, ∃ t, run step h₀ ([.allocate 256, .allocate 256, .allocate 1024,
            .free 0x1200, .reallocate 0x1000 512].take j) = some t ∧ t.diagnostics.allocated = n}
          h.diagnostics.peakAllocated := by
  have hsome : (new 0x1000 4096).isSome = true := by decide +kernel
  have hops : Along step CountsOnce ((new 0x1000 4096).get hsome)
      [.allocate 256, .allocate 256, .allocate 1024, .free 0x1200, .reallocate 0x1000 512] := by
    decide +kernel +revert
  exact ⟨_, (some_get hsome).symm, hops, counters_along_run (some_get hsome).symm hops 5⟩

/-- A block that is moved counts twice in the peak, and after one has taken a used block more is
allocated than there is. -/
theorem counters_count_twice :
    ((List.range 4).map fun j => ((new 0x1000 4096).bind fun h => run step h
        ([.allocate 256, .allocate 256, .reallocate 0x1000 512].take j)).map
      fun h => (h.diagnostics.allocated, h.diagnostics.peakAllocated)) =
        [some (0, 0), some (256, 256), some (512, 512), some (768, 1024)] ∧
    ((new 0x1000 1792).bind fun h => run step h
        [.allocate 256, .allocate 256, .allocate 1024, .free 0x1000, .reallocate 0x1100 1024]).map
      (fun h => (h.diagnostics.allocated, h.diagnostics.capacity)) = some (2048, 1792) := by
  decide +kernel

end Mwemu.O1Heap
