import Mwemu.Kernel.Ledger

/-!
# The maps of the kernel

The regions of the store as a list of named ranges. The fixed maps of `kernelInit` and the maps of
the chunks are each created on a clear range and then filled, so a store that holds a list of ranges
holds one more afterwards.
-/

namespace Mwemu.Kernel

open Mwemu.Lib Maps List

structure Named where
  name : String
  base : Nat
  size : Nat
  deriving DecidableEq

namespace Named

def ofRegion (r : Mem64) : Named := ⟨r.memName, r.baseAddr, r.size⟩

def ofFixed (f : FixedMap) : Named := ⟨f.name, f.base, f.size⟩

def ofChunk (c : KernelChunk) : Named := ⟨c.mapName, c.addr, c.size⟩

/-- The range is not empty and its end is an address. -/
def Proper (s : Named) : Prop := 0 < s.size ∧ s.base + s.size ≤ u64Max

def Avoids (s t : Named) : Prop := s.base + s.size ≤ t.base ∨ t.base + t.size ≤ s.base

def Apart (s t : Named) : Prop := s.name ≠ t.name ∧ Avoids s t

instance (s : Named) : Decidable (Proper s) := inferInstanceAs (Decidable (_ ∧ _))

instance (s t : Named) : Decidable (Avoids s t) := inferInstanceAs (Decidable (_ ∨ _))

instance (s t : Named) : Decidable (Apart s t) := inferInstanceAs (Decidable (_ ∧ _))

end Named

open Named

structure Holds (m : Maps) (ranges : List Named) : Prop where
  wf : m.Wf
  mem : ∀ s, s ∈ ranges ↔ ∃ key r, m.memSlab.get key = some r ∧ ofRegion r = s

/-- The store has one more region, of that name and range. -/
def Adds (m m' : Maps) (s : Named) : Prop :=
  ∃ key r, Changes m m' key (some r) ∧ m.memSlab.get key = none ∧ ofRegion r = s

theorem holds_default : Holds Maps.default [] := by
  refine ⟨wf_default, fun s => ⟨fun hs => (not_mem_nil hs).elim, ?_⟩⟩
  rintro ⟨key, r, hget, -⟩
  rw [Maps.default, Slab.get_empty] at hget
  cases hget

section Create

variable {m m' : Maps} {ranges : List Named} {s : Named}

section

variable (hm : Holds m ranges)
include hm

theorem Holds.add (hadds : Adds m m' s) : Holds m' (ranges ++ [s]) := by
  obtain ⟨key, r, hchanges, hvacant, hr⟩ := hadds
  refine ⟨hchanges.wf hm.wf, fun t => ?_⟩
  rw [mem_append, mem_singleton, hm.mem]
  constructor
  · rintro (⟨k, r', hget, ht⟩ | rfl)
    · refine ⟨k, r', ?_, ht⟩
      rw [hchanges.get_of_ne, hget]
      rintro rfl
      rw [hvacant] at hget
      cases hget
    · exact ⟨key, r, hchanges.get_self, hr⟩
  rintro ⟨k, r', hget, ht⟩
  by_cases hk : k = key
  · subst hk
    rw [hchanges.get_self] at hget
    cases hget
    exact .inr (ht.symm.trans hr)
  · rw [hchanges.get_of_ne hk] at hget
    exact .inl ⟨k, r', hget, ht⟩

theorem Holds.clear (hproper : ∀ t ∈ ranges, 0 < t.size)
    (hs : 0 < s.size) (hall : ∀ t ∈ ranges, Avoids t s) : m.Clear s.base s.size := by
  intro key r hget
  have ht := (hm.mem (ofRegion r)).mpr ⟨key, r, hget, rfl⟩
  have hdisjoint := hall _ ht
  have hpos := hproper _ ht
  have hsized := hm.wf.sized key r hget
  simp only [Named.Avoids, ofRegion] at hdisjoint hpos
  omega

theorem Holds.nameMap_eq_none (hname : ∀ t ∈ ranges, t.name ≠ s.name) :
    m.nameMap s.name = none := by
  by_contra htaken
  obtain ⟨key, hkey⟩ := Option.ne_none_iff_exists'.mp htaken
  obtain ⟨r, hget, hr⟩ := (hm.wf.named s.name key).mp hkey
  exact hname (ofRegion r) ((hm.mem _).mpr ⟨key, r, hget, rfl⟩) hr

theorem Holds.createMap_taken {t : Named} (ht : t ∈ ranges)
    (hlow : t.base ≤ s.base) (hhigh : s.base < t.base + t.size) (permission : Permission) :
    ∃ tlb msg, m.createMap s.name s.base s.size permission =
      ({ m with tlb := tlb }, .error msg) := by
  rcases hm.wf.createMap_cases s.name s.base s.size permission with ⟨-, hcreate⟩ | ⟨hfree, -⟩
  · exact hcreate
  obtain ⟨key, r, hget, rfl⟩ := (hm.mem t).mp ht
  have hsized := hm.wf.sized key r hget
  have hinside : r.inside s.base = true := inside_eq_true.mpr ⟨hlow, hsized.symm ▸ hhigh⟩
  rw [hm.wf.searchMaps_eq_some.mpr ⟨hget, hinside⟩] at hfree
  cases hfree

theorem Holds.createMap_of_apart (hproper : ∀ t ∈ ranges, 0 < t.size)
    (hs : Proper s) (hapart : ∀ t ∈ ranges, Apart t s) (permission : Permission) :
    ∃ m₁ key, m.createMap s.name s.base s.size permission = (m₁, .ok key) ∧
      Changes m m₁ key (some (freshMem s.name s.base s.size permission)) ∧
        m.memSlab.get key = none := by
  have hname := hm.nameMap_eq_none fun t ht => (hapart t ht).1
  rcases hm.wf.createMap_cases s.name s.base s.size permission with
    ⟨hexists | ⟨⟨key, r⟩, hfound⟩, -⟩ | ⟨-, -, tlb, hcreate⟩
  · rw [existsMapname, hname] at hexists
    cases hexists
  · obtain ⟨hget, hinside⟩ := hm.wf.searchMaps_eq_some.mp hfound
    have hsized := hm.wf.sized key r hget
    have hdisjoint := (hapart (ofRegion r) ((hm.mem _).mpr ⟨key, r, hget, rfl⟩)).2
    have hpos := hs.1
    rw [inside_eq_true, hsized] at hinside
    simp only [Named.Avoids, ofRegion] at hdisjoint
    omega
  · have hsize := freshMem_size s.name s.base s.size permission
    refine ⟨_, _, hcreate, hm.wf.changes_created tlb hname ?_ ?_ hs.2, m.memSlab.get_nextKey⟩
    · rw [hsize]
      exact hm.clear hproper hs.1 fun t ht => (hapart t ht).2
    · rw [hsize]
      rfl

omit hm in
theorem exists_filled (r : Mem64) (byte : UInt8) :
    ∃ r', r.forceWriteBytes r.baseAddr (List.replicate r.size byte) = some r' ∧
      r'.memName = r.memName ∧ r'.baseAddr = r.baseAddr ∧ r'.bottomAddr = r.bottomAddr ∧
        r'.size = r.size := by
  have hfits : r.baseAddr - r.baseAddr + (List.replicate r.size byte).length ≤ r.size := by
    rw [length_replicate, Nat.sub_self, Nat.zero_add]
  exact ⟨_, Mem64.forceWriteBytes_eq (Nat.le_refl _) hfits, rfl, rfl, rfl,
    Mem64.length_copyAt hfits⟩

omit hm in
theorem fillMap_of_changes (hwf : m.Wf) {key : Nat} {permission : Permission}
    (hchanges : Changes m m' key (some (freshMem s.name s.base s.size permission)))
    (hvacant : m.memSlab.get key = none) (byte : UInt8) :
    ∃ m₂, fillMap m' key s.base s.size byte = some m₂ ∧ Adds m m₂ s := by
  have hget := hchanges.get_self
  have hsize := freshMem_size s.name s.base s.size permission
  have hbase := freshMem_baseAddr s.name s.base s.size permission
  have hsized := (hchanges.sized _ rfl).1
  have hname : (freshMem s.name s.base s.size permission).memName = s.name := rfl
  generalize freshMem s.name s.base s.size permission = r at hchanges hget hsize hbase hsized hname
  obtain ⟨r', hwrite, hname', hbase', hbottom', hsize'⟩ := exists_filled r byte
  rw [hbase, hsize] at hwrite
  have hset : Changes m' { m' with memSlab := m'.memSlab.set key r' } key (some r') :=
    (hchanges.wf hwf).changes_set hget rfl rfl rfl hname' hbase' hbottom'.le
      (by rw [hbottom', hbase', hsize', hsized])
  refine ⟨_, ?_, key, r', hchanges.trans hset, hvacant, ?_⟩
  · rw [fillMap, hget, Option.bind_eq_bind, Option.bind_some, hwrite]
    rfl
  · rw [ofRegion, hname', hname, hbase', hbase, hsize', hsize]

theorem Holds.mapChunk (hproper : ∀ t ∈ ranges, 0 < t.size)
    {c : KernelChunk} (hc : Proper (ofChunk c)) (hapart : ∀ t ∈ ranges, Apart t (ofChunk c))
    (zeroed : Bool) :
    ∃ m', Kernel.mapChunk m c zeroed = some (m', c.addr) ∧ Adds m m' (ofChunk c) := by
  obtain ⟨m₁, key, hcreate, hchanges, hvacant⟩ := hm.createMap_of_apart hproper hc hapart readWrite
  obtain ⟨m₂, hfill, hadds⟩ := fillMap_of_changes hm.wf hchanges hvacant
    (if zeroed then 0 else 0x5a)
  refine ⟨m₂, ?_, hadds⟩
  rw [Kernel.mapChunk, show m.createMap c.mapName c.addr c.size readWrite = _ from hcreate]
  dsimp only
  rw [show fillMap m₁ key c.addr c.size _ = _ from hfill]
  rfl

theorem Holds.initMap (hproper : ∀ t ∈ ranges, 0 < t.size)
    {f : FixedMap} (hf : Proper (ofFixed f)) (hapart : ∀ t ∈ ranges, Apart t (ofFixed f)) :
    ∃ m', Kernel.initMap m f = some m' ∧ Adds m m' (ofFixed f) := by
  obtain ⟨m₁, key, hcreate, hchanges, hvacant⟩ :=
    hm.createMap_of_apart hproper hf hapart f.permission
  have hname : ¬m.existsMapname f.name = true := by
    rw [existsMapname, show m.nameMap f.name = none from
      hm.nameMap_eq_none fun t ht => (hapart t ht).1]
    exact Bool.false_ne_true
  rw [Kernel.initMap, if_neg hname,
    show m.createMap f.name f.base f.size f.permission = _ from hcreate]
  dsimp only
  cases hfill : f.fill with
  | some byte => exact fillMap_of_changes hm.wf hchanges hvacant byte
  | none => exact ⟨m₁, rfl, key, _, hchanges, hvacant, congrArg (Named.mk _ _)
      (freshMem_size f.name f.base f.size f.permission)⟩

theorem Holds.foldlM_initMap (fs : List FixedMap)
    (hproper : ∀ t ∈ ranges ++ fs.map ofFixed, Proper t)
    (hapart : (ranges ++ fs.map ofFixed).Pairwise Apart) :
    ∃ m', fs.foldlM Kernel.initMap m = some m' ∧ Holds m' (ranges ++ fs.map ofFixed) := by
  induction fs generalizing m ranges with
  | nil =>
    rw [map_nil, append_nil]
    exact ⟨m, rfl, hm⟩
  | cons f fs ih =>
    have hsplit : ranges ++ (f :: fs).map ofFixed = (ranges ++ [ofFixed f]) ++ fs.map ofFixed := by
      rw [append_assoc]
      rfl
    have hfirst := (pairwise_append.mp hapart).2.2
    obtain ⟨m₁, hinit, hadds⟩ := hm.initMap (fun t ht => (hproper t (mem_append_left _ ht)).1)
      (hproper (ofFixed f) (by simp)) fun t ht => hfirst t ht (ofFixed f) mem_cons_self
    rw [hsplit] at hproper hapart ⊢
    obtain ⟨m', hfold, hm'⟩ := ih (hm.add hadds) hproper hapart
    exact ⟨m', by rw [foldlM_cons, hinit]; exact hfold, hm'⟩

end

end Create

theorem fixedMaps_proper (os : KernelOs) : ∀ t ∈ (fixedMaps os).map ofFixed, Proper t := by
  cases os <;> decide

theorem fixedMaps_apart (os : KernelOs) : ((fixedMaps os).map ofFixed).Pairwise Apart := by
  cases os <;> decide

theorem kernelInit_default (os : KernelOs) :
    ∃ m, kernelInit Maps.default os = some ⟨m, KernelEnv.new os⟩ ∧
      Holds m ((fixedMaps os).map ofFixed) := by
  obtain ⟨m, hfold, hm⟩ := holds_default.foldlM_initMap (fixedMaps os) (fixedMaps_proper os)
    (fixedMaps_apart os)
  exact ⟨m, by rw [kernelInit, hfold]; rfl, hm⟩

end Mwemu.Kernel
