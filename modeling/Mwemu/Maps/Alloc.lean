import Mwemu.Lib.FirstFit
import Mwemu.Lib.Mask
import Mwemu.Maps.Runs

/-!
# Placing a region

`_alloc_uncapped` looks for space in a window of the address space: first behind the last region
based below the top, then in the gaps between the regions based in the window. The first search
rounds the end of the region up to a page; the second takes it as it is, and its first gap starts at
the bottom of the window whatever reaches in from below.
-/

namespace Mwemu

open Mwemu.Lib List Option OrdMap Nat

namespace Maps

variable {m : Maps}

def lib64Alloc (m : Maps) (sz : Nat) : Option Nat :=
  m.allocCapped sz libs64Min libs64Max

def lib64Reserve (m : Maps) (sz : Nat) : Option Nat :=
  m.allocUncapped sz libs64Min libs64Max

def lib32Alloc (m : Maps) (sz : Nat) : Option Nat :=
  m.allocCapped sz libs32Min libs32Max

/-! ### Pages -/

def pageRound (size : Nat) : Nat :=
  (size + (defaultAlignment - 1)) / defaultAlignment * defaultAlignment

variable {x : Nat}

theorem alignUp_eq (hx : x < 2 ^ 64) :
    alignUp x defaultAlignment = if x ≤ 2 ^ 64 - defaultAlignment then pageRound x else 0 := by
  have hpage : defaultAlignment = 2 ^ 12 := rfl
  unfold alignUp pageRound
  rw [hpage, and_two_pow_sub_two_pow (by decide) (mod_lt _ (by decide))]
  split <;> omega

theorem le_pageRound (x : Nat) : x ≤ pageRound x := by
  have hpage : defaultAlignment = 4096 := rfl
  unfold pageRound
  rw [hpage]
  omega

theorem pageRound_of_mod (hx : x % defaultAlignment = 0) : pageRound x = x := by
  have hpage : defaultAlignment = 4096 := rfl
  unfold pageRound
  rw [hpage] at hx ⊢
  omega

theorem pageRound_mod (x : Nat) : pageRound x % defaultAlignment = 0 :=
  mul_mod_left _ _

theorem pageRound_mono {y : Nat} (hxy : x ≤ y) : pageRound x ≤ pageRound y := by
  unfold pageRound
  exact Nat.mul_le_mul_right _ (Nat.div_le_div_right (Nat.add_le_add_right hxy _))

/-! ### The regions of a window -/

/-- The regions based in `[bottom, top)` in ascending order, with their ends. -/
def window (m : Maps) (bottom top : Nat) : List (Nat × Nat) :=
  (m.maps.range bottom top).filterMap fun entry =>
    (m.memSlab.get entry.2).map fun r => (entry.1, r.bottomAddr)

variable {bottom top : Nat}

theorem Wf.mem_window (hwf : m.Wf) {interval : Nat × Nat} :
    interval ∈ m.window bottom top ↔ ∃ key r, m.memSlab.get key = some r ∧
      interval = (r.baseAddr, r.bottomAddr) ∧ bottom ≤ r.baseAddr ∧ r.baseAddr < top := by
  unfold window
  rw [mem_filterMap]
  constructor
  · rintro ⟨⟨base, key⟩, hentry, hmap⟩
    rw [OrdMap.mem_range] at hentry
    obtain ⟨r, hget, rfl⟩ := (hwf.based base key).mp hentry.1
    simp only [hget, map_some, Option.some.injEq] at hmap
    exact ⟨key, r, hget, hmap.symm, hentry.2⟩
  · rintro ⟨key, r, hget, rfl, hlow, hhigh⟩
    refine ⟨(r.baseAddr, key), ?_, ?_⟩
    · rw [OrdMap.mem_range]
      exact ⟨(hwf.based _ _).mpr ⟨r, hget, rfl⟩, hlow, hhigh⟩
    · simp only [hget, map_some]

theorem Wf.bottomAddr_le (hwf : m.Wf) {k₁ k₂ : Nat} {r₁ r₂ : Mem64}
    (h₁ : m.memSlab.get k₁ = some r₁) (h₂ : m.memSlab.get k₂ = some r₂)
    (hlt : r₁.baseAddr < r₂.baseAddr) : r₁.bottomAddr ≤ r₂.baseAddr := by
  have hne : k₁ ≠ k₂ := by
    rintro rfl
    obtain rfl := Option.some.inj (h₁.symm.trans h₂)
    exact lt_irrefl _ hlt
  have hsized := hwf.sized k₂ r₂ h₂
  have hdisjoint := overlaps_eq_false.mp (hwf.disjoint k₁ k₂ r₁ r₂ h₁ h₂ hne)
  omega

theorem Wf.ascending_window (hwf : m.Wf) (bottom top : Nat) :
    Ascending bottom (m.window bottom top) := by
  have hascending : ∀ (entries : List (Nat × Nat)) (low : Nat),
      entries.Pairwise (fun x y => x.1 < y.1) → (∀ entry ∈ entries, entry ∈ m.maps) →
      (∀ entry ∈ entries, low ≤ entry.1) →
      Ascending low (entries.filterMap fun entry =>
        (m.memSlab.get entry.2).map fun r => (entry.1, r.bottomAddr)) := by
    intro entries
    induction entries with
    | nil => exact fun _ _ _ _ => trivial
    | cons entry entries ih =>
      intro low hsorted hlive hlow
      obtain ⟨base, key⟩ := entry
      obtain ⟨hfirst, hrest⟩ := pairwise_cons.mp hsorted
      obtain ⟨r, hget, rfl⟩ := (hwf.based base key).mp (hlive _ mem_cons_self)
      have hsized := hwf.sized key r hget
      rw [filterMap_cons_some (b := (r.baseAddr, r.bottomAddr)) (by simp [hget])]
      refine ⟨hlow _ mem_cons_self, by omega, ih _ hrest
        (fun entry hentry => hlive entry (mem_cons_of_mem _ hentry)) fun entry hentry => ?_⟩
      obtain ⟨base', key'⟩ := entry
      obtain ⟨r', hget', rfl⟩ := (hwf.based base' key').mp (hlive _ (mem_cons_of_mem _ hentry))
      exact hwf.bottomAddr_le hget hget' (hfirst _ hentry)
  refine hascending _ bottom (range_sorted bottom top) (fun entry hentry => ?_)
    fun entry hentry => ?_
  · exact (mem_range.mp hentry).1
  · exact (mem_range.mp hentry).2.1

theorem Wf.findGap_eq (hwf : m.Wf) (need : Nat) (entries : List (Nat × Nat)) (prev sz : Nat)
    (hlive : ∀ entry ∈ entries, entry ∈ m.maps) (hend : prev + sz < 2 ^ 64) :
    m.findGap need entries prev sz = firstFit need (prev + sz) (entries.filterMap fun entry =>
        (m.memSlab.get entry.2).map fun r => (entry.1, r.bottomAddr)) := by
  induction entries generalizing prev sz with
  | nil => rfl
  | cons entry entries ih =>
    obtain ⟨base, key⟩ := entry
    obtain ⟨r, hget, rfl⟩ := (hwf.based base key).mp (hlive _ mem_cons_self)
    have hsized := hwf.sized key r hget
    have hbounded := hwf.bounded key r hget
    have hmax : u64Max = 2 ^ 64 - 1 := rfl
    rw [filterMap_cons_some (b := (r.baseAddr, r.bottomAddr)) (by simp [hget])]
    unfold findGap firstFit
    simp only [mod_eq_of_lt hend, hget]
    have hrest := ih r.baseAddr r.size
      (fun entry hentry => hlive entry (mem_cons_of_mem _ hentry)) (by omega)
    rw [hrest, ← hsized]
    by_cases hfits : need < r.baseAddr - (prev + sz)
    · rw [if_pos ⟨by omega, hfits⟩, if_pos hfits]
    · rw [if_neg fun h => hfits h.2, if_neg hfits]

/-! ### What a placement should be -/

/-- Nothing is mapped in `[a, a + size)`. -/
def Vacant (m : Maps) (a size : Nat) : Prop :=
  ∀ x, a ≤ x → x < a + size → ∀ key r, m.memSlab.get key = some r → r.inside x = false

/-- A place for `size` bytes: whole pages of the window that are vacant. -/
structure Placed (m : Maps) (bottom top size a : Nat) : Prop where
  aligned : a % defaultAlignment = 0
  above : bottom ≤ a
  below : a + pageRound size ≤ top
  vacant : m.Vacant a (pageRound size)

/-- There is room behind every region that is based below the top. -/
def RoomBehind (m : Maps) (bottom top size : Nat) : Prop :=
  bottom + pageRound size < top ∧ ∀ key r, m.memSlab.get key = some r → r.baseAddr < top →
    pageRound r.bottomAddr + pageRound size < top

/-- A region based below the top ends in the last page of the address space. -/
def EndsInLastPage (m : Maps) (top : Nat) : Prop :=
  ∃ key r, m.memSlab.get key = some r ∧ r.baseAddr < top ∧
    2 ^ 64 - defaultAlignment < r.bottomAddr

/-- The size can be rounded up, and there is room behind the last region or the first gap that fits
starts at a page and, at the bottom of the window, is not entered from below. (Where the end of the
last region cannot be rounded up, the bottom of the window has to be vacant.) -/
def PlacesWell (m : Maps) (bottom top size : Nat) : Prop :=
  size ≤ 2 ^ 64 - defaultAlignment ∧
    (m.RoomBehind bottom top size ∨
      (m.EndsInLastPage top ∧ m.Vacant bottom (pageRound size)) ∨
      (¬ m.EndsInLastPage top ∧
        ∀ low high, FirstGap (pageRound size) bottom (m.window bottom top) low high →
          low % defaultAlignment = 0 ∧ (low = bottom → m.Vacant bottom (pageRound size))))

/-! ### Behind the last region -/

theorem Wf.bottomAddr_le_of_floor (hwf : m.Wf) {base key : Nat} {r : Mem64}
    (hfloor : m.maps.floor (top - 1) = some (base, key)) (hget : m.memSlab.get key = some r)
    (hbase : r.baseAddr = base) {k : Nat} {r' : Mem64} (hget' : m.memSlab.get k = some r')
    (hlt : r'.baseAddr < top) : r'.bottomAddr ≤ r.bottomAddr := by
  obtain ⟨-, -, hgreatest⟩ := floor_eq_some.mp hfloor
  have hle := hgreatest (r'.baseAddr, k) ((hwf.based _ _).mpr ⟨r', hget', rfl⟩)
    (by simp only; omega)
  rcases lt_or_eq_of_le hle with hlt' | heq
  · have hend := hwf.bottomAddr_le hget' hget (by simp only at hlt'; omega)
    have hsized := hwf.sized key r hget
    omega
  · obtain ⟨-, rfl⟩ := hwf.eq_of_baseAddr hget' hget (by simp only at heq; omega)
    exact le_refl _

/-- Where the first search looks: at the end of the last region, rounded up as far as it can be, but
not below the bottom of the window. -/
structure LooksAt (m : Maps) (bottom top e : Nat) : Prop where
  aligned : e % defaultAlignment = 0
  above : bottom ≤ e
  rounded : ¬ m.EndsInLastPage top → ∀ key r, m.memSlab.get key = some r → r.baseAddr < top →
    pageRound r.bottomAddr ≤ e
  cases : e = bottom ∨ ¬ m.EndsInLastPage top ∧
    ∃ key r, m.memSlab.get key = some r ∧ r.baseAddr < top ∧ e = pageRound r.bottomAddr

theorem Wf.allocUncapped_eq (hwf : m.Wf) (hwindow : bottom < top) (htop : top < 2 ^ 63)
    (hbottom : bottom % defaultAlignment = 0) :
    ∃ e, LooksAt m bottom top e ∧ ∀ size, m.allocUncapped size bottom top =
      if e ≤ top ∧ alignUp size defaultAlignment < top - e then some e
      else m.findGap (alignUp size defaultAlignment) (m.maps.range bottom top) bottom 0 := by
  have hpage : defaultAlignment = 4096 := rfl
  have hstart : alignUp bottom defaultAlignment = bottom := by
    rw [alignUp_eq (by omega), if_pos (by omega), pageRound_of_mod hbottom]
  unfold allocUncapped
  rw [hstart]
  cases hfloor : m.maps.floor (top - 1) with
  | none =>
    have hnone : ∀ key r, m.memSlab.get key = some r → ¬ r.baseAddr < top := by
      intro key r hget hlt
      have hgt := floor_eq_none.mp hfloor _ ((hwf.based _ _).mpr ⟨r, hget, rfl⟩)
      simp only at hgt
      omega
    exact ⟨bottom, ⟨hbottom, le_refl _, fun _ key r hget hlt => absurd hlt (hnone key r hget),
      .inl rfl⟩, fun _ => rfl⟩
  | some entry =>
    obtain ⟨base, key⟩ := entry
    obtain ⟨hmem, hle, -⟩ := floor_eq_some.mp hfloor
    obtain ⟨r, hget, hbase⟩ := (hwf.based base key).mp hmem
    have hsized := hwf.sized key r hget
    have hbounded := hwf.bounded key r hget
    have hmax : u64Max = 2 ^ 64 - 1 := rfl
    have hlast : ∀ k r', m.memSlab.get k = some r' → r'.baseAddr < top →
        r'.bottomAddr ≤ r.bottomAddr := fun k r' hget' hlt =>
      hwf.bottomAddr_le_of_floor hfloor hget hbase hget' hlt
    have hend : (base + r.size) % 2 ^ 64 = r.bottomAddr := by
      rw [mod_eq_of_lt (by omega)]
      omega
    simp only [hget, map_some, getD_some, hend]
    rw [alignUp_eq (x := r.bottomAddr) (by omega)]
    simp only at hle
    split
    · next hround =>
      have hnot : ¬ m.EndsInLastPage top := by
        rintro ⟨k, r', hget', hlt, hlastPage⟩
        have hle' := hlast k r' hget' hlt
        omega
      refine ⟨max (pageRound r.bottomAddr) bottom, ⟨?_, le_max_right _ _,
        fun _ k r' hget' hlt => le_trans (pageRound_mono (hlast k r' hget' hlt))
          (le_max_left _ _), ?_⟩, fun _ => rfl⟩
      · rcases le_total (pageRound r.bottomAddr) bottom with hle' | hle'
        · rw [max_eq_right hle']
          exact hbottom
        · rw [max_eq_left hle']
          exact pageRound_mod _
      · rcases le_total (pageRound r.bottomAddr) bottom with hle' | hle'
        · exact .inl (max_eq_right hle')
        · exact .inr ⟨hnot, key, r, hget, by omega, max_eq_left hle'⟩
    · next hround =>
      have hends : m.EndsInLastPage top := ⟨key, r, hget, by omega, by omega⟩
      refine ⟨max 0 bottom, ?_, fun _ => rfl⟩
      rw [Nat.zero_max]
      exact ⟨hbottom, le_refl _, fun hnot => absurd hends hnot, .inl rfl⟩

/-! ### The two searches -/

variable {size : Nat}

theorem LooksAt.vacant {e : Nat} (hlooks : LooksAt m bottom top e) (hnot : ¬ m.EndsInLastPage top)
    (hfits : e + size ≤ top) : m.Vacant e size := by
  intro x hlow hhigh key r hget
  by_contra hinside
  rw [Bool.not_eq_false, inside_eq_true] at hinside
  have hround := hlooks.rounded hnot key r hget (by omega)
  have hle := le_pageRound r.bottomAddr
  omega

theorem LooksAt.roomBehind_iff {e : Nat} (hlooks : LooksAt m bottom top e) (htop : top < 2 ^ 63) :
    m.RoomBehind bottom top size ↔ ¬ m.EndsInLastPage top ∧ e + pageRound size < top := by
  have hpage : defaultAlignment = 4096 := rfl
  constructor
  · rintro ⟨hwindow, hroom⟩
    have hnot : ¬ m.EndsInLastPage top := by
      rintro ⟨key, r, hget, hlt, hlastPage⟩
      have hfits := hroom key r hget hlt
      have hle := le_pageRound r.bottomAddr
      omega
    refine ⟨hnot, ?_⟩
    rcases hlooks.cases with rfl | ⟨-, key, r, hget, hlt, rfl⟩
    · exact hwindow
    · exact hroom key r hget hlt
  · rintro ⟨hnot, hroom⟩
    have habove := hlooks.above
    refine ⟨by omega, fun key r hget hlt => ?_⟩
    have hround := hlooks.rounded hnot key r hget hlt
    omega

theorem Wf.placed_gap_iff (hwf : m.Wf) {low high : Nat}
    (hgap : FirstGap (pageRound size) bottom (m.window bottom top) low high) :
    Placed m bottom top size low ↔
      low % defaultAlignment = 0 ∧ (low = bottom → m.Vacant bottom (pageRound size)) := by
  have hascending := hwf.ascending_window bottom top
  have hfits := hgap.fits
  have hlow := hgap.bottom_le hascending
  have hhigh : high < top := by
    obtain ⟨stop, hmem⟩ := hgap.exists_high
    obtain ⟨key, r, -, heq, -, hlt⟩ := hwf.mem_window.mp hmem
    obtain ⟨rfl, -⟩ := Prod.mk.inj heq
    exact hlt
  refine ⟨fun hplaced => ⟨hplaced.aligned, fun heq => heq ▸ hplaced.vacant⟩,
    fun ⟨haligned, hbottom⟩ => ⟨haligned, hlow, by omega, ?_⟩⟩
  rcases hgap.low_cases with rfl | ⟨start, hmem⟩
  · exact hbottom rfl
  -- the gap starts at the end of a region of the window, which keeps out all that is below
  obtain ⟨key, r, hget, heq, hbase, -⟩ := hwf.mem_window.mp hmem
  obtain ⟨-, rfl⟩ := Prod.mk.inj heq
  have hsized := hwf.sized key r hget
  intro x hx hx' k r' hget'
  by_contra hinside
  rw [Bool.not_eq_false, inside_eq_true] at hinside
  by_cases hbelow : r'.baseAddr < bottom
  · have hend := hwf.bottomAddr_le hget' hget (by omega)
    omega
  have hwindow : (r'.baseAddr, r'.bottomAddr) ∈ m.window bottom top :=
    hwf.mem_window.mpr ⟨k, r', hget', rfl, by omega, by omega⟩
  have hapart := hgap.apart hascending hwindow
  simp only at hapart
  omega

theorem Wf.placed_iff (hwf : m.Wf) {a : Nat} (hwindow : bottom < top) (htop : top < 2 ^ 63)
    (hbottom : bottom % defaultAlignment = 0) (hsize : size < 2 ^ 64)
    (halloc : m.allocUncapped size bottom top = some a) :
    Placed m bottom top size a ↔ m.PlacesWell bottom top size := by
  have hpage : defaultAlignment = 4096 := rfl
  obtain ⟨e, hlooks, heq⟩ := hwf.allocUncapped_eq hwindow htop hbottom
  rw [heq, alignUp_eq hsize] at halloc
  unfold PlacesWell
  by_cases hround : size ≤ 2 ^ 64 - defaultAlignment
  · rw [if_pos hround] at halloc
    rw [hlooks.roomBehind_iff htop]
    simp only [hround, true_and]
    by_cases hbehind : e ≤ top ∧ pageRound size < top - e
    · rw [if_pos hbehind] at halloc
      have hfits : e + pageRound size < top := by omega
      cases halloc
      by_cases hends : m.EndsInLastPage top
      · -- the search has fallen back to the bottom of the window
        obtain rfl := hlooks.cases.resolve_right fun h => h.1 hends
        simp only [hends, not_true_eq_false, false_and, or_false, true_and, false_or]
        exact ⟨fun hplaced => hplaced.vacant, fun hvacant =>
          ⟨hlooks.aligned, le_refl _, le_of_lt hfits, hvacant⟩⟩
      · refine ⟨fun _ => .inl ⟨hends, hfits⟩, fun _ => ⟨hlooks.aligned, hlooks.above,
          le_of_lt hfits, hlooks.vacant hends (le_of_lt hfits)⟩⟩
    · rw [if_neg hbehind, hwf.findGap_eq _ _ _ _ (fun entry hentry =>
        (mem_range.mp hentry).1) (by omega), add_zero] at halloc
      obtain ⟨high, hgap⟩ := firstFit_eq_some_iff.mp halloc
      have hgap' : FirstGap (pageRound size) bottom (m.window bottom top) a high := hgap
      have hnot : ¬ m.EndsInLastPage top := by
        intro hends
        have hfallback : e = bottom := hlooks.cases.resolve_right fun h => h.1 hends
        have hfits := hgap'.fits
        have hlow := hgap'.bottom_le (hwf.ascending_window bottom top)
        obtain ⟨stop, hmem⟩ := hgap'.exists_high
        obtain ⟨key, r, -, heq, -, hlt⟩ := hwf.mem_window.mp hmem
        obtain ⟨rfl, -⟩ := Prod.mk.inj heq
        omega
      rw [hwf.placed_gap_iff hgap']
      constructor
      · intro hgood
        refine .inr (.inr ⟨hnot, fun low high' hgap'' => ?_⟩)
        have hsame := firstFit_eq_some_iff.mpr ⟨high', hgap''⟩
        obtain rfl : a = low := Option.some.inj (halloc.symm.trans hsame)
        exact hgood
      · rintro (⟨-, hroom⟩ | ⟨hends, -⟩ | ⟨-, hgood⟩)
        · omega
        · exact absurd hends hnot
        · exact hgood a high hgap'
  · -- the rounded size has wrapped around to nothing
    refine ⟨fun hplaced => ?_, fun hwell => absurd hwell.1 hround⟩
    have hbelow := hplaced.below
    have hle := le_pageRound size
    omega

/-! ### The allocators -/

inductive Allocator where
  | alloc
  | lib64Alloc
  | lib32Alloc
  | lib64Reserve
  deriving DecidableEq, Repr

namespace Allocator

def find (m : Maps) (sz : Nat) : Allocator → Option Nat
  | alloc => m.alloc sz
  | lib64Alloc => m.lib64Alloc sz
  | lib32Alloc => m.lib32Alloc sz
  | lib64Reserve => m.lib64Reserve sz

def window (m : Maps) : Allocator → Nat × Nat
  | alloc => if m.is64bits then (alloc64Min, alloc64Max) else (alloc32Min, alloc32Max)
  | lib64Alloc => (libs64Min, libs64Max)
  | lib32Alloc => (libs32Min, libs32Max)
  | lib64Reserve => (libs64Min, libs64Max)

def bytes (m : Maps) (sz : Nat) : Allocator → Nat
  | lib64Reserve => sz
  | _ => min sz m.maxAllocSize

theorem find_eq (m : Maps) (sz : Nat) (f : Allocator) :
    f.find m sz = m.allocUncapped (f.bytes m sz) (f.window m).1 (f.window m).2 := by
  cases f with
  | alloc =>
    unfold find window bytes Maps.alloc
    cases m.is64bits <;> rfl
  | lib64Alloc => rfl
  | lib32Alloc => rfl
  | lib64Reserve => rfl

theorem window_spec (m : Maps) (f : Allocator) :
    (f.window m).1 < (f.window m).2 ∧ (f.window m).2 < 2 ^ 63 ∧
      (f.window m).1 % defaultAlignment = 0 := by
  have hlibs64 : libs64Min < libs64Max ∧ libs64Max < 2 ^ 63 ∧ libs64Min % defaultAlignment = 0 := by
    decide
  cases f with
  | alloc =>
    unfold window
    cases m.is64bits <;> decide
  | lib64Alloc => exact hlibs64
  | lib32Alloc =>
    change libs32Min < libs32Max ∧ libs32Max < 2 ^ 63 ∧ libs32Min % defaultAlignment = 0
    decide
  | lib64Reserve => exact hlibs64

/-- What an allocator returns is a place for the pages asked for exactly if the store places the
size well in the allocator's window. -/
theorem find_placed_iff (m : Maps) (hwf : m.Wf) (f : Allocator) (sz a : Nat) (hsz : sz < 2 ^ 64)
    (hfind : f.find m sz = some a) : Placed m (f.window m).1 (f.window m).2 (f.bytes m sz) a ↔
      m.PlacesWell (f.window m).1 (f.window m).2 (f.bytes m sz) := by
  obtain ⟨hwindow, htop, hbottom⟩ := f.window_spec m
  have hbytes : f.bytes m sz < 2 ^ 64 := by
    unfold bytes
    cases f <;> simp only <;> omega
  rw [find_eq] at hfind
  exact hwf.placed_iff hwindow htop hbottom hbytes hfind

/-- A region of one byte in the first page of the window and another in its last page. -/
def lowAndHigh (low : Nat) : List Op :=
  [.createMap "low" low 1 readWrite, .createMap "high" 0x6FFFF000 1 readWrite]

/-- The gap behind the first region starts at a page. -/
theorem find_placed_iff_lowAndHigh : ∃ m, run Op.step Maps.default (lowAndHigh 0x6000FFF) = some m ∧
      alloc.find m 0x10 = some 0x6001000 ∧
      m.PlacesWell (alloc.window m).1 (alloc.window m).2 (alloc.bytes m 0x10) := by
  have hops : Along Op.step (fun m op => op.InRange m ∧ op.Admitted m) Maps.default
      (lowAndHigh 0x6000FFF) := by
    decide +kernel
  have hreached : (run Op.step Maps.default (lowAndHigh 0x6000FFF)).any (fun m =>
      (alloc.find m 0x10 = some 0x6001000 ∧ m.Clear 0x6001000 0x1000) ∧
        alloc.window m = (alloc32Min, alloc32Max) ∧ alloc.bytes m 0x10 = 0x10) = true := by
    decide +kernel
  obtain ⟨m, hrun, hfound⟩ := (any_eq_true _ _).mp hreached
  obtain ⟨⟨hfind, hclear⟩, hwindow, hbytes⟩ := of_decide_eq_true hfound
  refine ⟨m, hrun, hfind,
    (find_placed_iff m (wf_of_run hops hrun) alloc 0x10 0x6001000 (by decide) hfind).mp ?_⟩
  rw [hwindow, hbytes]
  refine ⟨by decide, by decide, by decide, fun x hlow hhigh key r hget => ?_⟩
  have hhigh : x < 0x6001000 + 0x1000 := hhigh
  rw [Bool.eq_false_iff, ne_eq, inside_eq_true]
  have hclear := (hclear key r hget).1
  omega

/-- There is no room behind the second region, and the gap behind the first starts at its end, in
the middle of a page. -/
theorem alloc_unaligned : ∃ m, run Op.step Maps.default (lowAndHigh 0x6000000) = some m ∧ m.Wf ∧
      alloc.find m 0x10 = some 0x6000001 ∧
        ¬ Placed m (alloc.window m).1 (alloc.window m).2 (alloc.bytes m 0x10) 0x6000001 := by
  have hadmitted : Along Op.step (fun m op => op.InRange m ∧ op.Admitted m) Maps.default
      (lowAndHigh 0x6000000) := by
    decide +kernel
  have hfind : (run Op.step Maps.default (lowAndHigh 0x6000000)).map (alloc.find · 0x10) =
      some (some 0x6000001) := by
    decide +kernel
  obtain ⟨m, hrun, hfind⟩ := map_eq_some_iff.mp hfind
  refine ⟨m, hrun, wf_of_run hadmitted hrun, hfind, fun hplaced => ?_⟩
  exact absurd hplaced.aligned (by decide)

end Allocator

end Maps

end Mwemu
