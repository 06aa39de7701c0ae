import Mwemu.Lib.Run
import Mwemu.O1Heap.Reallocate

/-!
# Runs of the allocator

A new heap is one free block, and every call keeps the heap a row of blocks of its arena, unless it
grows a block backward over a used one. So in a run without such calls nothing panics and the live
allocations are disjoint ranges of the arena.
-/

namespace Mwemu.O1Heap

open Mwemu.Lib List Option

/-! ### A new heap -/

def unbinned (base : UInt64) (size : UInt32) : O1Heap where
  base := base.toNat
  bins := fun _ => none
  hashes := OrdMap.empty.insert 0 0
  nonemptyBinMask := 0
  diagnostics := ⟨size.toNat, 0, 0, 0, 0⟩
  nodes := fun _ => Fragment.new 0 size.toNat
  fresh := 1

theorem shape_unbinned (base : UInt64) (size : UInt32) :
    Shape (unbinned base size) [0] (fun _ => []) {0} where
  nodup := nodup_singleton 0
  made hid := by
    rw [mem_singleton.mp hid]
    exact Nat.one_pos
  linked := ⟨rfl, rfl, trivial⟩
  bins :=
    { head := fun _ => rfl
      linked := fun _ => trivial
      nodup := fun _ => nodup_nil
      disjoint := nofun
      made := nofun
      small := fun hne => absurd rfl hne
      mask := fun i => by simp [unbinned] }
  binned i id := by
    refine ⟨nofun, fun h => absurd (mem_singleton.mp h.1) h.2.1⟩
  indexed hid hpark := absurd (mem_singleton.mp hid) hpark
  index {o id} hget := by
    by_cases ho : o = 0
    · subst ho
      rw [unbinned, OrdMap.get_insert_self] at hget
      cases hget
      exact ⟨Nat.one_pos, rfl, nofun⟩
    · rw [unbinned, OrdMap.get_insert_of_ne ho] at hget
      cases hget

theorem layout_single {cap : Nat} (hcap : 512 ≤ cap) : Layout cap [⟨0, cap, false⟩] where
  tiles := ⟨cap, ⟨rfl, Nat.zero_add cap⟩, Nat.le_refl _, rfl⟩
  min b hb := by
    rw [mem_singleton.mp hb]
    exact Nat.le_trans (by decide) hcap
  aligned := nofun
  apart := isChain_singleton _

variable {base : UInt64} {size : UInt32} {h : O1Heap}

theorem new_eq_some (hnew : new base size = some h) :
    h.base = base.toNat ∧ h.diagnostics = ⟨size.toNat, 0, 0, 0, 0⟩ ∧ Rep h [0] ∧
      h.row [0] = [⟨0, size.toNat, false⟩] := by
  rw [new] at hnew
  split_ifs at hnew with hsmall
  have hmin : 512 ≤ size.toNat := Nat.not_lt.mp hsmall
  have hlt : size.toNat < 2 ^ 32 := size.toNat_lt
  obtain ⟨h', hrebin, hsame, lists, hs⟩ := (shape_unbinned base size).rebin (mem_singleton_self 0)
    rfl rfl (Nat.le_trans (by decide) hmin) (binIndex_lt hlt)
  obtain rfl : h' = h := Option.some.inj (hrebin.symm.trans hnew)
  have hrow : h'.row [0] = [⟨0, size.toNat, false⟩] := by
    rw [row_cons, hsame.blockOf]
    rfl
  refine ⟨hsame.base, hsame.diagnostics, ⟨⟨lists, ?_⟩, ?_, ?_, ?_⟩, hrow⟩
  · rwa [Set.sdiff_self] at hs
  · rw [hrow, hsame.diagnostics]
    exact layout_single hmin
  · rw [hrow, hsame.diagnostics]
    rfl
  · rw [hsame.diagnostics]
    exact hlt

/-! ### Calls that keep the heap a row of blocks -/

def Arena (base : UInt64) (size : UInt32) (h : O1Heap) : Prop :=
  h.base = base.toNat ∧ h.diagnostics.capacity = size.toNat ∧ ∃ ids, Rep h ids

/-- The call does not count the size of a used fragment. -/
def Spares (h : O1Heap) : Op → Prop
  | .reallocate address amount => ¬ CountsUsedNext h address amount
  | _ => True

instance {h : O1Heap} {op : Op} : Decidable (Spares h op) :=
  match op with
  | .reallocate address amount => inferInstanceAs (Decidable (¬ CountsUsedNext h address amount))
  | .allocate _ => .isTrue trivial
  | .free _ => .isTrue trivial

theorem arena_new (hnew : new base size = some h) : Arena base size h := by
  obtain ⟨hbase, hdiagnostics, hr, -⟩ := new_eq_some hnew
  exact ⟨hbase, by rw [hdiagnostics], [0], hr⟩

theorem Arena.of_becomes {h' : O1Heap} {bs : List Block} (ha : Arena base size h)
    (hb : Becomes h h' bs) : Arena base size h' := by
  obtain ⟨ids, hr, -⟩ := hb.rep
  exact ⟨hb.base.trans ha.1, hb.capacity.trans ha.2.1, ids, hr⟩

variable {ids : List Nat}

theorem Rep.allocate_isSome_iff (hr : Rep h ids) (amount : Nat) :
    (∃ a h', h.allocate amount = some (some a, h')) ↔ Fits (h.row ids) amount := by
  constructor
  · rintro ⟨a, h', hcall⟩
    by_contra hfits
    obtain ⟨h'', hcall', -⟩ := hr.allocate_of_not_fits hfits
    rw [hcall] at hcall'
    cases hcall'
  · intro hfits
    obtain ⟨l, b, r, h', -, -, -, hcall, -⟩ := hr.allocate_of_fits hfits
    exact ⟨_, h', hcall⟩

def call (h : O1Heap) : Op → Option (Option Nat × O1Heap)
  | .allocate amount => h.allocate amount
  | .free address => (h.free address).map fun h => (none, h)
  | .reallocate address amount =>
    (h.reallocate address amount).map fun (r, h) => (r.map ReallocResult.newAddr, h)

theorem step_eq_call (h : O1Heap) (op : Op) : h.step op = (h.call op).map Prod.snd := by
  cases op with
  | allocate amount => rfl
  | free address =>
    rw [step, call, Option.map_map]
    exact map_id'.symm
  | reallocate address amount =>
    rw [step, call, Option.map_map]
    rfl

inductive RowStep (h : O1Heap) (ids : List Nat) : Op → Option Nat → List Block → Prop
  | taken {amount : Nat} {l r : List Block} {b : Block} (hsize : fragmentSize amount ≠ 0)
      (hrow : h.row ids = l ++ b :: r) (hfree : b.used = false)
      (hle : fragmentSize amount ≤ b.size) :
      RowStep h ids (.allocate amount) (some ((b.offset + h.base) % 2 ^ 64))
        (l ++ takenBlocks b (fragmentSize amount) ++ r)
  | full {amount : Nat} (hfits : ¬ Fits (h.row ids) amount) :
      RowStep h ids (.allocate amount) none (h.row ids)
  | freed {address : Nat} :
      RowStep h ids (.free address) none (freeRow (h.row ids) (h.offsetOf address))
  | reallocated {address amount : Nat} {r : Option ReallocResult} {bs : List Block}
      (hresult : ReallocateResult h ids address amount r bs) :
      RowStep h ids (.reallocate address amount) (r.map ReallocResult.newAddr) bs

variable {op : Op}

theorem Rep.call (hr : Rep h ids) (hop : Spares h op) :
    ∃ a h' bs, h.call op = some (a, h') ∧ Becomes h h' bs ∧ RowStep h ids op a bs := by
  cases op with
  | allocate amount =>
    by_cases hfits : Fits (h.row ids) amount
    · obtain ⟨l, b, r, h', hrow, hfree, hle, hcall, hbecomes⟩ := hr.allocate_of_fits hfits
      exact ⟨_, h', _, hcall, hbecomes, .taken hfits.2.1 hrow hfree hle⟩
    · obtain ⟨h', hcall, hbecomes⟩ := hr.allocate_of_not_fits hfits
      exact ⟨none, h', _, hcall, hbecomes, .full hfits⟩
  | free address =>
    obtain ⟨h', hcall, hbecomes⟩ := hr.becomes_free address
    exact ⟨none, h', _, by rw [O1Heap.call, hcall]; rfl, hbecomes, .freed⟩
  | reallocate address amount =>
    obtain ⟨r, h', bs, hcall, hbecomes, hresult⟩ := hr.reallocate hop
    exact ⟨_, h', bs, by rw [O1Heap.call, hcall]; rfl, hbecomes, .reallocated hresult⟩

theorem Rep.step (hr : Rep h ids) (hop : Spares h op) :
    ∃ a h' bs, h.step op = some h' ∧ Becomes h h' bs ∧ RowStep h ids op a bs := by
  obtain ⟨a, h', bs, hcall, hbecomes, hstep⟩ := hr.call hop
  exact ⟨a, h', bs, by rw [step_eq_call, hcall]; rfl, hbecomes, hstep⟩

theorem Arena.step (ha : Arena base size h) (hop : Spares h op) :
    ∃ h', h.step op = some h' ∧ Arena base size h' := by
  obtain ⟨ids, hr⟩ := ha.2.2
  obtain ⟨a, h', bs, hcall, hbecomes, -⟩ := hr.step hop
  exact ⟨h', hcall, ha.of_becomes hbecomes⟩

/-! ### Live allocations -/

section Live

variable {h : O1Heap} {ids : List Nat} {a b m n : Nat}

theorem exists_alias (hbase : h.base ≤ a) : ∃ k, a = h.base + 2 ^ 32 * k + h.offsetOf a := by
  refine ⟨(a - h.base) / 2 ^ 32, ?_⟩
  have hdiv := Nat.div_add_mod (a - h.base) (2 ^ 32)
  have hoffset : h.offsetOf a = (a - h.base) % 2 ^ 32 := by
    rw [offsetOf]
    omega
  rw [hoffset]
  omega

theorem offsetOf_base_add {o : Nat} (ho : o < 2 ^ 32) : h.offsetOf (h.base + o) = o := by
  rw [offsetOf]
  omega

theorem Rep.live_of_mem (hr : Rep h ids) {c : Block} (hc : c ∈ h.row ids) (hused : c.used = true) :
    c.offset < 2 ^ 32 ∧ h.allocationSize (h.base + c.offset) = some c.size := by
  obtain ⟨id, hid, rfl⟩ := mem_map.mp hc
  have hlt : (h.blockOf id).offset < 2 ^ 32 :=
    Nat.lt_of_le_of_lt (Nat.le_add_right _ _) (hr.stop_lt hid)
  refine ⟨hlt, hr.allocationSize_eq_some.mpr ⟨Nat.le_add_right _ _, ?_⟩⟩
  rw [offsetOf_base_add hlt, ← hused]
  exact hc

theorem Rep.allocationSize_of_becomes {h' : O1Heap} (hr : Rep h ids)
    (hbecomes : Becomes h h' (h.row ids)) (x : Nat) : h'.allocationSize x = h.allocationSize x := by
  obtain ⟨ids', hr', hrow⟩ := hbecomes.rep
  have hoffset : h'.offsetOf x = h.offsetOf x := by rw [offsetOf, offsetOf, hbecomes.base]
  refine Option.ext fun n => ?_
  rw [hr'.allocationSize_eq_some, hr.allocationSize_eq_some, hrow, hbecomes.base, hoffset]

theorem Rep.address_mod (hr : Rep h ids) (hfit : h.base + h.diagnostics.capacity ≤ 2 ^ 64) {b : Block}
    (hb : b ∈ h.row ids) : (h.base + b.offset) % 2 ^ 64 = h.base + b.offset := by
  obtain ⟨id, hid, rfl⟩ := mem_map.mp hb
  have hstop := hr.stop_le hid
  have hmin := hr.min_size hid
  rw [blockOf]
  exact Nat.mod_eq_of_lt (by dsimp only; omega)

theorem Rep.live_stop (hr : Rep h ids) (hlive : h.allocationSize a = some n) :
    h.base ≤ a ∧ h.offsetOf a + n ≤ h.diagnostics.capacity := by
  obtain ⟨hbase, hmem⟩ := hr.allocationSize_eq_some.mp hlive
  obtain ⟨l, r, hrow⟩ := append_of_mem hmem
  have hlayout := hr.layout
  rw [hrow] at hlayout
  exact ⟨hbase, hlayout.stop_le⟩

theorem Rep.live_disjoint (hr : Rep h ids) (ha : h.allocationSize a = some m)
    (hb : h.allocationSize b = some n) (hne : a ≠ b) : a + m ≤ b ∨ b + n ≤ a := by
  obtain ⟨hbaseA, hstopA⟩ := hr.live_stop ha
  obtain ⟨hbaseB, hstopB⟩ := hr.live_stop hb
  obtain ⟨j, hj⟩ := exists_alias hbaseA
  obtain ⟨k, hk⟩ := exists_alias hbaseB
  have hsmall := hr.small
  rcases Nat.lt_trichotomy j k with hlt | rfl | hlt
  · omega
  · -- the offsets differ, so these are different fragments
    obtain ⟨x, hx, hxb⟩ := mem_map.mp (hr.allocationSize_eq_some.mp ha).2
    obtain ⟨y, hy, hyb⟩ := mem_map.mp (hr.allocationSize_eq_some.mp hb).2
    obtain ⟨hxo, hxs, -⟩ := Block.mk.inj hxb
    obtain ⟨hyo, hys, -⟩ := Block.mk.inj hyb
    have hxy : x ≠ y := by
      rintro rfl
      omega
    have hdisjoint := hr.disjoint hx hy hxy
    omega
  · omega

end Live

/-- In a run whose calls spare used fragments nothing panics, the live allocations are disjoint, and
those whose address is less than 4 GiB above the base lie inside the arena. -/
theorem live_ranges_along_run {base : UInt64} {size : UInt32} {h₀ : O1Heap}
    (hnew : new base size = some h₀) {ops : List Op} (hops : Along step Spares h₀ ops) (k : Nat) :
    ∃ h, run step h₀ (ops.take k) = some h ∧
      (∀ a b m n, h.allocationSize a = some m → h.allocationSize b = some n → a ≠ b →
        a + m ≤ b ∨ b + n ≤ a) ∧ ∀ a n, h.allocationSize a = some n →
        (base.toNat ≤ a ∧ a + n ≤ base.toNat + size.toNat ↔ a < base.toNat + 2 ^ 32) := by
  obtain ⟨h, hrun, hbase, hcapacity, ids, hr⟩ := run_invariant (Arena base size)
    (fun s op hs hop => hs.step hop) (arena_new hnew) (hops.take k)
  refine ⟨h, hrun, fun a b m n ha hb hne => hr.live_disjoint ha hb hne, fun a n ha => ?_⟩
  obtain ⟨hle, hstop⟩ := hr.live_stop ha
  obtain ⟨j, hj⟩ := exists_alias hle
  have hsmall := hr.small
  rw [hbase] at hle hj
  rw [hcapacity] at hstop hsmall
  constructor
  · omega
  · intro hlt
    obtain rfl : j = 0 := by omega
    omega

/-- Two allocations, of which the first grows when the second is released. -/
theorem live_ranges_growing : ∃ h₀, new 0x1000 4096 = some h₀ ∧ Along step Spares h₀
        [.allocate 256, .allocate 256, .free 0x1100, .reallocate 0x1000 1024] ∧
      ∃ h, run step h₀ [.allocate 256, .allocate 256, .free 0x1100, .reallocate 0x1000 1024] = some h ∧
        (∀ a b m n, h.allocationSize a = some m → h.allocationSize b = some n → a ≠ b →
          a + m ≤ b ∨ b + n ≤ a) ∧ ∀ a n, h.allocationSize a = some n →
          ((0x1000 : UInt64).toNat ≤ a ∧ a + n ≤ (0x1000 : UInt64).toNat + (4096 : UInt32).toNat ↔
            a < (0x1000 : UInt64).toNat + 2 ^ 32) := by
  have hsome : (new 0x1000 4096).isSome = true := by decide +kernel
  have hops : Along step Spares ((new 0x1000 4096).get hsome)
      [.allocate 256, .allocate 256, .free 0x1100, .reallocate 0x1000 1024] := by
    decide +kernel +revert
  exact ⟨_, (some_get hsome).symm, hops, live_ranges_along_run (some_get hsome).symm hops 4⟩

/-- A block that is grown backward takes the used one after it, and an address 4 GiB further on is
live as well. -/
theorem reallocate_overlaps_next : ((new 0x1000 4096).bind fun h => run step h
        [.allocate 256, .allocate 256, .allocate 512, .free 0x1000, .reallocate 0x1100 1024]).map
      (fun h => (h.allocationSize 0x1000, h.allocationSize 0x1200)) = some (some 1024, some 512) ∧
    ((new 0x1000 4096).bind fun h => run step h [.allocate 256]).map
      (fun h => h.allocationSize (0x1000 + 2 ^ 32)) = some (some 256) := by
  decide +kernel

end Mwemu.O1Heap
