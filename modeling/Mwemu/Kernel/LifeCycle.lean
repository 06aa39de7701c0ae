import Mwemu.Kernel.Alloc

/-!
# The life cycle of chunks

Along every run a chunk is freed at most once, every rejected release is counted in one finding, and
the search for leaks leaves one finding for each live chunk. What can go wrong is the poisoning: a
chunk whose map was refused is written over the map that is found at its base, and the write panics
if that map is too short.
-/

namespace Mwemu.Kernel

open Mwemu.Lib Maps Named KernelHeap List Option

/-! ### Findings -/

/-- One finding is counted once more, or a first one is added. -/
inductive OneMore (key : FindingKind × UInt64 × Nat) (fs fs' : List Finding) : Prop where
  | counted (i : Nat) (f : Finding) (hget : fs[i]? = some f) (hkey : f.key = key)
      (heq : fs' = fs.modify i Finding.hit)
  | added (f : Finding) (hnew : ∀ g ∈ fs, g.key ≠ key) (hkey : f.key = key) (hhits : f.hits = 1)
      (heq : fs' = fs ++ [f])

def hitsOf (p : FindingKind → Bool) (fs : List Finding) : Nat :=
  (fs.map fun f => if p f.kind then f.hits else 0).sum

def isRejection (kind : FindingKind) : Bool := kind = .doubleFree ∨ kind = .invalidFree

section Findings

variable {fs fs' : List Finding} {key : FindingKind × UInt64 × Nat}

variable {f : Finding}

theorem oneMore_report (fs : List Finding) (hhits : f.hits = 1) :
    OneMore f.key fs (report fs f) := by
  unfold report
  split
  next i hi =>
    obtain ⟨hlt, hkey, -⟩ := List.findIdx?_eq_some_iff_getElem.mp hi
    exact .counted i fs[i] (List.getElem?_eq_getElem hlt) (of_decide_eq_true hkey) rfl
  next hnone =>
    rw [List.findIdx?_eq_none_iff] at hnone
    exact .added f (fun g hg => of_decide_eq_false (hnone g hg)) rfl hhits rfl

theorem hitsOf_modify (p : FindingKind → Bool) {i : Nat} (hget : fs[i]? = some f) :
    hitsOf p (fs.modify i Finding.hit) = hitsOf p fs + if p f.kind then 1 else 0 := by
  induction fs generalizing i with
  | nil => cases hget
  | cons g fs ih =>
    cases i with
    | zero =>
      cases hget
      rw [modify_zero_cons, hitsOf, hitsOf, map_cons, map_cons, sum_cons,
        sum_cons, show f.hit.kind = f.kind from rfl,
        show f.hit.hits = f.hits + 1 from rfl]
      split <;> omega
    | succ i =>
      rw [modify_succ_cons, hitsOf, hitsOf, map_cons, map_cons, sum_cons,
        sum_cons, ← hitsOf, ← hitsOf, ih hget, Nat.add_assoc]

section

variable (hone : OneMore key fs fs')
include hone

theorem OneMore.hitsOf_eq (p : FindingKind → Bool) :
    hitsOf p fs' = hitsOf p fs + if p key.1 then 1 else 0 := by
  cases hone with
  | counted i f hget hkey heq =>
    rw [heq, hitsOf_modify p hget, ← hkey]
    rfl
  | added f hnew hkey hhits heq =>
    rw [heq, hitsOf, hitsOf, map_append, sum_append, map_singleton, sum_singleton, hhits, ← hkey]
    rfl

omit hone in
theorem map_key_modify (fs : List Finding) (i : Nat) :
    (fs.modify i Finding.hit).map Finding.key = fs.map Finding.key := by
  apply ext_getElem?
  intro j
  rw [List.getElem?_map, List.getElem?_map, List.getElem?_modify]
  cases fs[j]? with
  | none => rfl
  | some f =>
    rw [Option.map_eq_map, Option.map_some, Option.map_some, Option.map_some]
    split <;> rfl

theorem OneMore.nodup (hnodup : (fs.map Finding.key).Nodup) : (fs'.map Finding.key).Nodup := by
  cases hone with
  | counted i f hget hkey heq => rwa [heq, map_key_modify]
  | added f hnew hkey hhits heq =>
    rw [heq, map_append, map_singleton, nodup_append]
    refine ⟨hnodup, nodup_singleton _, fun k hk k' hk' => ?_⟩
    obtain ⟨g, hg, rfl⟩ := mem_map.mp hk
    rw [mem_singleton.mp hk', hkey]
    exact hnew g hg

theorem OneMore.mem_key : ∃ f ∈ fs', f.key = key := by
  cases hone with
  | counted i f hget hkey heq =>
    have hmem : f.key ∈ (fs.modify i Finding.hit).map Finding.key :=
      map_key_modify fs i ▸ mem_map_of_mem (mem_of_getElem? hget)
    obtain ⟨g, hg, hgkey⟩ := mem_map.mp hmem
    exact ⟨g, heq ▸ hg, hgkey.trans hkey⟩
  | added f hnew hkey hhits heq =>
    exact ⟨f, heq ▸ mem_append_right _ (mem_singleton.mpr rfl), hkey⟩

theorem OneMore.mem_iff (hne : f.key ≠ key) : f ∈ fs' ↔ f ∈ fs := by
  cases hone with
  | counted i g hget hkey heq =>
    subst heq
    simp only [mem_iff_getElem?, List.getElem?_modify]
    refine exists_congr fun j => ?_
    by_cases hij : i = j
    · subst hij
      rw [hget, Option.map_eq_map, Option.map_some, if_pos rfl]
      refine iff_of_false (fun hsome => hne ?_) (fun hsome => hne ?_)
      · exact Option.some.inj hsome ▸ hkey
      · exact Option.some.inj hsome ▸ hkey
    · simp only [hij, if_false]
      cases fs[j]? <;> rfl
  | added g hnew hkey hhits heq =>
    rw [heq, mem_append, mem_singleton]
    refine or_iff_left ?_
    rintro rfl
    exact hne hkey

theorem OneMore.forall_mem {P : FindingKind × UInt64 × Nat → Prop}
    (hall : ∀ f ∈ fs, P f.key) (hkey : P key) : ∀ f ∈ fs', P f.key := by
  intro f hf
  by_cases hf' : f.key = key
  · exact hf' ▸ hkey
  · exact hall f ((hone.mem_iff hf').mp hf)

theorem OneMore.kept (hf : f ∈ fs) : ∃ g ∈ fs', g.key = f.key := by
  by_cases hf' : f.key = key
  · exact hf' ▸ hone.mem_key
  · exact ⟨f, (hone.mem_iff hf').mpr hf, rfl⟩

end

end Findings

/-! ### Leaks -/

def OfChunks (chunks : List KernelChunk) (key : FindingKind × UInt64 × Nat) : Prop :=
  key.1 = .leak → ∃ c ∈ chunks, key.2 = (c.allocRip, c.addr)

def leakKey (c : KernelChunk) : FindingKind × UInt64 × Nat := (.leak, c.allocRip, c.addr)

/-- What the search leaves of the findings, for the chunks that it goes through. -/
structure LeaksOf (cs : List KernelChunk) (fs fs' : List Finding) : Prop where
  nodup : (fs.map Finding.key).Nodup → (fs'.map Finding.key).Nodup
  others : ∀ f, (∀ c ∈ cs, f.key ≠ leakKey c) → (f ∈ fs' ↔ f ∈ fs)
  keys : ∀ P : FindingKind × UInt64 × Nat → Prop, (∀ f ∈ fs, P f.key) →
    (∀ c ∈ cs, P (leakKey c)) → ∀ f ∈ fs', P f.key
  kept : ∀ f ∈ fs, ∃ g ∈ fs', g.key = f.key
  found : ∀ c ∈ cs, ∃ f ∈ fs', f.key = leakKey c
  hits : ∀ p : FindingKind → Bool,
    hitsOf p fs' = hitsOf p fs + if p .leak then cs.length else 0

theorem leaksOf_reportLeaks (pos : UInt64) (cs : List KernelChunk) (fs : List Finding) :
    LeaksOf cs fs (reportLeaks pos fs cs) := by
  induction cs generalizing fs with
  | nil =>
    exact ⟨id, fun _ _ => Iff.rfl, fun _ hall _ => hall, fun f hf => ⟨f, hf, rfl⟩,
      fun _ hc => (not_mem_nil hc).elim, fun p => by rw [length_nil, ite_self]; rfl⟩
  | cons c cs ih =>
    have hhits : (c.leak pos).hits = 1 := rfl
    have hone : OneMore (leakKey c) fs (report fs (c.leak pos)) := oneMore_report fs hhits
    have hrest := ih (report fs (c.leak pos))
    refine ⟨fun hnodup => hrest.nodup (hone.nodup hnodup), fun f hne => ?_, fun P hall hcs => ?_,
      fun f hf => ?_, fun d hd => ?_, fun p => ?_⟩
    · rw [forall_mem_cons] at hne
      exact (hrest.others f hne.2).trans (hone.mem_iff hne.1)
    · rw [forall_mem_cons] at hcs
      exact hrest.keys P (hone.forall_mem hall hcs.1) hcs.2
    · obtain ⟨g, hg, hgf⟩ := hone.kept hf
      obtain ⟨k, hk, hkg⟩ := hrest.kept g hg
      exact ⟨k, hk, hkg.trans hgf⟩
    · rcases mem_cons.mp hd with rfl | hd
      · obtain ⟨f, hf, hkey⟩ := hone.mem_key
        obtain ⟨g, hg, hgf⟩ := hrest.kept f hf
        exact ⟨g, hg, hgf.trans hkey⟩
      · exact hrest.found d hd
    · rw [show reportLeaks pos fs (c :: cs) =
          reportLeaks pos (report fs (c.leak pos)) cs from rfl, hrest.hits, hone.hitsOf_eq, length_cons, show (leakKey c).1 = .leak from rfl]
      split <;> omega

/-! ### What is asked of the calls -/

def LiveBase (h : KernelHeap) (ptr : UInt64) : Prop :=
  ∃ c ∈ h.chunks, c.addr = ptr.toNat ∧ c.isFreed = false

def FreedBase (h : KernelHeap) (ptr : UInt64) : Prop :=
  ∃ c ∈ h.chunks, c.addr = ptr.toNat ∧ c.isFreed = true

/-- A rejected release: nothing changes but one finding, of the kind that fits the pointer. -/
structure Rejects (e e' : KernelEmu) (ptr : UInt64) : Prop where
  maps : e'.maps = e.maps
  heap : e'.kernel.heap = e.kernel.heap
  double : FreedBase e.kernel.heap ptr → ∃ key, key.1 = .doubleFree ∧
    OneMore key e.kernel.findings e'.kernel.findings
  invalid : ¬FreedBase e.kernel.heap ptr → ∃ key, key.1 = .invalidFree ∧
    OneMore key e.kernel.findings e'.kernel.findings

/-- A release that is accepted: the chunk at the pointer is freed and no finding is made. -/
structure Accepts (e e' : KernelEmu) (ptr : UInt64) : Prop where
  findings : e'.kernel.findings = e.kernel.findings
  freed : ∀ c ∈ e'.kernel.heap.chunks, c.addr = ptr.toNat → c.isFreed = true

def FreeMeets (e : KernelEmu) (ptr : UInt64) (api : String) (pos rip : UInt64) : Prop :=
  ∃ e' ok, e.kernelFree ptr api pos rip = some (e', ok) ∧
    (ok = true ↔ ptr = 0 ∨ LiveBase e.kernel.heap ptr) ∧
    (ok = true → Accepts e e' ptr) ∧ (ok = false → Rejects e e' ptr)

/-- The search makes exactly one finding for each live chunk and none for others. -/
structure LeaksMeet (e e' : KernelEmu) : Prop where
  maps : e'.maps = e.maps
  heap : e'.kernel.heap = e.kernel.heap
  one : ∀ c ∈ e.kernel.heap.live, ∃ f, e'.kernel.findings.filter (fun f =>
    f.kind = .leak ∧ f.origin.addr = c.addr) = [f]
  others : ∀ f, (∀ c ∈ e.kernel.heap.live, ¬(f.kind = .leak ∧ f.origin.addr = c.addr)) →
    (f ∈ e'.kernel.findings ↔ f ∈ e.kernel.findings)

def KernelChunk.asAllocated (c : KernelChunk) : KernelChunk :=
  { c with state := .live, freeApi := "", freePos := 0, freeRip := 0 }

/-- No chunk is lost or changed but by its release, and one that was freed stays as it was. -/
def Evolves (h h' : KernelHeap) : Prop :=
  ∀ (i : Nat) (c : KernelChunk), h.chunks[i]? = some c → ∃ c', h'.chunks[i]? = some c' ∧
    c'.asAllocated = c.asAllocated ∧ (c.isFreed = true → c' = c)

def OpMeets (e : KernelEmu) : KernelOp → Prop
  | .alloc call zeroed => ∀ e' ptr, e.kernelAlloc call zeroed = some (e', ptr) →
      e'.kernel.findings = e.kernel.findings ∧ Evolves e.kernel.heap e'.kernel.heap
  | .free ptr api pos rip => FreeMeets e ptr api pos rip ∧
      ∀ e' ok, e.kernelFree ptr api pos rip = some (e', ok) →
        Evolves e.kernel.heap e'.kernel.heap
  | .checkLeaks pos => LeaksMeet e (e.kernelCheckLeaks pos)

/-- The map that is found at the base of a chunk, if there is one, holds the whole chunk. -/
def PoisonFits (m : Maps) (c : KernelChunk) : Prop :=
  ∀ key r, (m.getMemByAddrMut c.addr).1 = some (key, r) →
    c.addr + c.size ≤ r.baseAddr + r.size

def OpFits (e : KernelEmu) : KernelOp → Prop
  | .free ptr _ _ _ => ∀ c ∈ e.kernel.heap.chunks, c.addr = ptr.toNat → c.isFreed = false →
      PoisonFits e.maps c
  | .alloc _ _ | .checkLeaks _ => True

/-! ### Releases -/

variable {h : KernelHeap} {c : KernelChunk}

theorem KernelHeap.Ledger.eq_of_addr (hh : Ledger h) {d : KernelChunk} (hc : c ∈ h.chunks)
    (hd : d ∈ h.chunks) (haddr : c.addr = d.addr) : c = d := by
  have hcpos := hh.pos c hc
  have hdpos := hh.pos d hd
  refine hh.eq_of_contains hc hd (x := c.addr) ?_ ?_ <;>
    simp only [KernelChunk.contains, Bool.and_eq_true, decide_eq_true_eq] <;> omega

theorem KernelHeap.baseChunk_eq_some {a i : Nat} (hbase : h.baseChunk a = some (i, c)) :
    h.chunks[i]? = some c ∧ c.addr = a := by
  obtain ⟨j, hj, hmap⟩ := bind_eq_some_iff.mp hbase
  obtain ⟨d, hd, heq⟩ := map_eq_some_iff.mp hmap
  cases heq
  obtain ⟨hlt, haddr, -⟩ := List.findIdx?_eq_some_iff_getElem.mp hj
  rw [List.getElem?_eq_getElem hlt] at hd
  cases hd
  exact ⟨List.getElem?_eq_getElem hlt, of_decide_eq_true haddr⟩

theorem KernelHeap.baseChunk_eq_none {a : Nat} (hbase : h.baseChunk a = none) :
    ∀ c ∈ h.chunks, c.addr ≠ a := by
  intro c hc haddr
  cases hj : h.indexOfBase a with
  | none =>
    have hnone := List.findIdx?_eq_none_iff.mp hj c hc
    exact of_decide_eq_false hnone haddr
  | some j =>
    obtain ⟨hlt, -⟩ := List.findIdx?_eq_some_iff_getElem.mp hj
    rw [baseChunk, hj, bind_some, List.getElem?_eq_getElem hlt] at hbase
    cases hbase

theorem inside_of_getMemByAddrMut {m : Maps} {addr key : Nat} {r : Mem64}
    (hfound : (m.getMemByAddrMut addr).1 = some (key, r)) : r.inside addr = true := by
  rw [getMemByAddrMut] at hfound
  split at hfound
  · split at hfound
    · next hinside =>
      cases hfound
      exact hinside
    · exact (searchMaps_eq_some_iff.mp hfound).choose_spec.2.2
  · exact (searchMaps_eq_some_iff.mp hfound).choose_spec.2.2

theorem poison_isSome_iff (m : Maps) (c : KernelChunk) :
    (∃ m', poison m c.addr c.size = some m') ↔ PoisonFits m c := by
  unfold PoisonFits
  rw [poison]
  cases hlook : m.getMemByAddrMut c.addr with
  | mk found m₁ =>
    cases found with
    | none => exact iff_of_true ⟨m₁, rfl⟩ fun _ _ hnone => by cases hnone
    | some found =>
      obtain ⟨key, r⟩ := found
      have hinside := inside_of_getMemByAddrMut (congrArg Prod.fst hlook)
      rw [inside_eq_true] at hinside
      dsimp only
      have hfits : (∃ r', r.forceWriteBytes c.addr (List.replicate c.size 0x6b) = some r') ↔
          c.addr + c.size ≤ r.baseAddr + r.size := by
        rw [Mem64.forceWriteBytes, length_replicate, Mem64.size]
        split <;> simp <;> omega
      constructor
      · rintro ⟨m', hm'⟩ _ _ ⟨⟩
        obtain ⟨r', hr', -⟩ := bind_eq_some_iff.mp hm'
        exact hfits.mp ⟨r', hr'⟩
      · intro hall
        obtain ⟨r', hr'⟩ := hfits.mpr (hall key r rfl)
        exact ⟨_, by rw [hr']; rfl⟩

section Free

variable {os : KernelOs} {e e' : KernelEmu} {ptr : UInt64} {api : String} {pos rip : UInt64}

theorem kernelFree_live (hptr : ptr ≠ 0) {idx : Nat}
    (hbase : e.kernel.heap.baseChunk ptr.toNat = some (idx, c)) (hlive : c.isFreed = false) :
    e.kernelFree ptr api pos rip = (poison e.maps c.addr c.size).bind fun m =>
      some (⟨m, { e.kernel with heap := e.kernel.heap.recordFree idx api pos rip }⟩, true) := by
  rw [baseChunk] at hbase
  rw [KernelEmu.kernelFree, if_neg hptr, hbase]
  dsimp only
  rw [hlive]
  rfl

theorem exists_kernelFree (api : String) (pos rip : UInt64)
    (hfits : ∀ c ∈ e.kernel.heap.chunks, c.addr = ptr.toNat → c.isFreed = false →
      PoisonFits e.maps c) : ∃ r, e.kernelFree ptr api pos rip = some r := by
  by_cases hptr : ptr = 0
  · exact ⟨(e, true), if_pos hptr⟩
  cases hbase : e.kernel.heap.baseChunk ptr.toNat with
  | none =>
    rw [baseChunk] at hbase
    rw [KernelEmu.kernelFree, if_neg hptr, hbase]
    exact ⟨_, rfl⟩
  | some found =>
    obtain ⟨idx, c⟩ := found
    obtain ⟨hget, haddr⟩ := baseChunk_eq_some hbase
    cases hfreed : c.isFreed with
    | true =>
      rw [baseChunk] at hbase
      rw [KernelEmu.kernelFree, if_neg hptr, hbase]
      dsimp only
      rw [hfreed, if_pos rfl]
      exact ⟨_, rfl⟩
    | false =>
      obtain ⟨m', hm'⟩ := (poison_isSome_iff e.maps c).mpr
        (hfits c (mem_of_getElem? hget) haddr hfreed)
      rw [kernelFree_live hptr hbase hfreed, hm']
      exact ⟨_, rfl⟩

theorem oneMore_kernelReport {kind : FindingKind} {addr : Nat} {bytes : UInt32}
    {origin : ChunkOrigin} : OneMore (kind, rip, origin.addr) e.kernel.findings
      (e.kernelReport kind pos rip addr bytes origin).kernel.findings :=
  oneMore_report e.kernel.findings (f := ⟨kind, pos, rip, addr, bytes, origin, 1⟩) rfl

theorem Evolves.refl (h : KernelHeap) : Evolves h h :=
  fun _ c hc => ⟨c, hc, rfl, fun _ => rfl⟩

theorem Evolves.trans {h' h'' : KernelHeap} (h₁ : Evolves h h') (h₂ : Evolves h' h'') :
    Evolves h h'' := by
  intro i c hc
  obtain ⟨c', hc', hsame', hkept'⟩ := h₁ i c hc
  obtain ⟨c'', hc'', hsame'', hkept''⟩ := h₂ i c' hc'
  refine ⟨c'', hc'', hsame''.trans hsame', fun hfreed => ?_⟩
  obtain rfl := hkept' hfreed
  exact hkept'' hfreed

theorem evolves_recordFree (api : String) (pos rip : UInt64) {idx : Nat}
    (hget : h.chunks[idx]? = some c) (hlive : c.isFreed = false) :
    Evolves h (h.recordFree idx api pos rip) := by
  intro i d hd
  rw [recordFree, List.getElem?_modify, hd, Option.map_eq_map, Option.map_some]
  by_cases hi : idx = i
  · subst hi
    obtain rfl := Option.some.inj (hget.symm.trans hd)
    rw [if_pos rfl]
    exact ⟨_, rfl, rfl, fun hfreed => by rw [hlive] at hfreed; cases hfreed⟩
  · rw [if_neg hi]
    exact ⟨d, rfl, rfl, fun _ => rfl⟩

theorem KernelHeap.Sound.addr_pos (hs : Sound os h) (hc : c ∈ h.chunks) : 0 < c.addr :=
  Nat.lt_of_lt_of_le (base_pos os c.region) (hs.low c hc)

theorem KernelHeap.Sound.base_iff (hs : Sound os h) (hc : c ∈ h.chunks)
    (haddr : c.addr = ptr.toNat) :
    (LiveBase h ptr ↔ c.isFreed = false) ∧ (FreedBase h ptr ↔ c.isFreed = true) := by
  have hsame : ∀ d ∈ h.chunks, d.addr = ptr.toNat → d = c := fun d hd hda =>
    hs.ledger.eq_of_addr hd hc (hda.trans haddr.symm)
  refine ⟨⟨?_, fun hlive => ⟨c, hc, haddr, hlive⟩⟩, ?_, fun hfreed => ⟨c, hc, haddr, hfreed⟩⟩
  · rintro ⟨d, hd, hda, hlive⟩
    exact hsame d hd hda ▸ hlive
  · rintro ⟨d, hd, hda, hfreed⟩
    exact hsame d hd hda ▸ hfreed

theorem ptr_ne_zero_of_base (hs : Sound os e.kernel.heap) (hc : c ∈ e.kernel.heap.chunks)
    (haddr : c.addr = ptr.toNat) : ptr ≠ 0 := by
  rintro rfl
  exact Nat.ne_of_gt (hs.addr_pos hc) haddr

theorem meets_of_frees (hs : Sound os e.kernel.heap) {ok : Bool}
    (hfrees : Frees e e' ptr api pos rip ok) : ((ok = true ↔ ptr = 0 ∨ LiveBase e.kernel.heap ptr) ∧
      (ok = true → Accepts e e' ptr) ∧ (ok = false → Rejects e e' ptr)) ∧
        Evolves e.kernel.heap e'.kernel.heap := by
  cases hfrees with
  | null hptr he =>
    subst he
    refine ⟨⟨iff_of_true rfl (.inl hptr), fun _ => ⟨rfl, fun c hc haddr => ?_⟩,
      (nomatch ·)⟩, .refl _⟩
    exact (ptr_ne_zero_of_base hs hc haddr hptr).elim
  | invalid hptr hbase he =>
    subst he
    have hnone := baseChunk_eq_none hbase
    refine ⟨⟨iff_of_false Bool.false_ne_true ?_, (nomatch ·), fun _ => ⟨rfl, rfl, ?_,
      fun _ => ⟨_, rfl, oneMore_kernelReport⟩⟩⟩, .refl _⟩
    · rintro (hzero | ⟨c, hc, haddr, -⟩)
      · exact hptr hzero
      · exact hnone c hc haddr
    · rintro ⟨c, hc, haddr, -⟩
      exact (hnone c hc haddr).elim
  | double hptr idx c hbase hfreed he =>
    subst he
    obtain ⟨hget, haddr⟩ := baseChunk_eq_some hbase
    obtain ⟨hlive, hdead⟩ := hs.base_iff (mem_of_getElem? hget) haddr
    refine ⟨⟨iff_of_false Bool.false_ne_true ?_, (nomatch ·), fun _ => ⟨rfl, rfl,
      fun _ => ⟨_, rfl, oneMore_kernelReport⟩, fun hnot => (hnot (hdead.mpr hfreed)).elim⟩⟩,
      .refl _⟩
    rintro (hzero | hbase)
    · exact hptr hzero
    · rw [hlive.mp hbase] at hfreed
      cases hfreed
  | done hptr idx c hbase hlive hmaps hkernel =>
    obtain ⟨hget, haddr⟩ := baseChunk_eq_some hbase
    have hevolves := evolves_recordFree api pos rip hget hlive
    rw [hkernel]
    refine ⟨⟨iff_of_true rfl (.inr ⟨c, mem_of_getElem? hget, haddr, hlive⟩),
      fun _ => ⟨by rw [hkernel], fun d hd hda => ?_⟩, (nomatch ·)⟩, hevolves⟩
    rw [hkernel] at hd
    have hs' := hs.recordFree idx api pos rip
    have hmem : { c with state := .freed, freeApi := api, freePos := pos, freeRip := rip } ∈
        (e.kernel.heap.recordFree idx api pos rip).chunks := by
      refine mem_of_getElem? (i := idx) ?_
      rw [recordFree, List.getElem?_modify, hget, Option.map_eq_map, Option.map_some, if_pos rfl]
    obtain rfl := hs'.ledger.eq_of_addr hd hmem (hda.trans haddr.symm)
    rfl

theorem freeMeets_iff (hs : Sound os e.kernel.heap) :
    FreeMeets e ptr api pos rip ↔ ∀ c ∈ e.kernel.heap.chunks, c.addr = ptr.toNat →
      c.isFreed = false → PoisonFits e.maps c := by
  constructor
  · rintro ⟨e', ok, hfree, -⟩ c hc haddr hlive
    have hptr := ptr_ne_zero_of_base hs hc haddr
    cases hbase : e.kernel.heap.baseChunk ptr.toNat with
    | none => exact (baseChunk_eq_none hbase c hc haddr).elim
    | some found =>
      obtain ⟨idx, d⟩ := found
      obtain ⟨hget, hda⟩ := baseChunk_eq_some hbase
      obtain rfl := hs.ledger.eq_of_addr (mem_of_getElem? hget) hc (hda.trans haddr.symm)
      rw [kernelFree_live hptr hbase hlive] at hfree
      obtain ⟨m', hm', -⟩ := bind_eq_some_iff.mp hfree
      exact (poison_isSome_iff e.maps d).mp ⟨m', hm'⟩
  · intro hfits
    obtain ⟨⟨e', ok⟩, hfree⟩ := exists_kernelFree api pos rip hfits
    exact ⟨e', ok, hfree, (meets_of_frees hs (frees_of_kernelFree hfree)).1⟩

end Free

/-! ### Runs -/

/-- Repeats are recognised, and leak findings are about chunks. -/
structure LifeInv (os : KernelOs) (e : KernelEmu) : Prop where
  sound : Sound os e.kernel.heap
  nodup : (e.kernel.findings.map Finding.key).Nodup
  leaks : ∀ f ∈ e.kernel.findings, OfChunks e.kernel.heap.chunks f.key

theorem lifeInv_init {os : KernelOs} {m : Maps} {e : KernelEmu}
    (hinit : kernelInit m os = some e) : LifeInv os e := by
  obtain ⟨m', -, he⟩ := bind_eq_some_iff.mp hinit
  cases he
  exact ⟨sound_forOs os, nodup_nil, fun f hf => (not_mem_nil hf).elim⟩

theorem Evolves.ofChunks {h' : KernelHeap} (hevolves : Evolves h h')
    {key : FindingKind × UInt64 × Nat} (hkey : OfChunks h.chunks key) : OfChunks h'.chunks key := by
  intro hleak
  obtain ⟨c, hc, hpair⟩ := hkey hleak
  obtain ⟨i, hi⟩ := List.getElem?_of_mem hc
  obtain ⟨c', hc', hsame, -⟩ := hevolves i c hi
  refine ⟨c', mem_of_getElem? hc', hpair.trans (Prod.ext ?_ ?_)⟩
  · exact (congrArg KernelChunk.allocRip hsame).symm
  · exact (congrArg KernelChunk.addr hsame).symm

theorem eq_singleton_of_nodup {α β : Type*} (g : α → β) {xs : List α} {x : α}
    (hnodup : (xs.map g).Nodup) (hx : x ∈ xs) (hall : ∀ y ∈ xs, g y = g x) : xs = [x] := by
  cases xs with
  | nil => cases hx
  | cons y ys =>
    rw [map_cons, nodup_cons] at hnodup
    have hnil : ys = [] := by
      refine eq_nil_iff_forall_not_mem.mpr fun z hz => hnodup.1 ?_
      rw [hall y mem_cons_self, ← hall z (mem_cons_of_mem _ hz)]
      exact mem_map_of_mem hz
    subst hnil
    rw [mem_singleton.mp hx]

theorem leaksOf_kernelCheckLeaks (e : KernelEmu) (pos : UInt64) :
    LeaksOf e.kernel.heap.live e.kernel.findings (e.kernelCheckLeaks pos).kernel.findings := by
  rw [kernelCheckLeaks_eq]
  exact leaksOf_reportLeaks pos e.kernel.heap.live e.kernel.findings

theorem kernelCheckLeaks_heap (e : KernelEmu) (pos : UInt64) :
    (e.kernelCheckLeaks pos).kernel.heap = e.kernel.heap := by
  rw [kernelCheckLeaks_eq]

section Steps

variable {os : KernelOs} {e e' : KernelEmu} (hinv : LifeInv os e)
include hinv

theorem LifeInv.checkLeaks (pos : UInt64) : LifeInv os (e.kernelCheckLeaks pos) := by
  have hleaks := leaksOf_kernelCheckLeaks e pos
  refine ⟨?_, hleaks.nodup hinv.nodup, ?_⟩ <;> rw [kernelCheckLeaks_heap]
  · exact hinv.sound
  · exact hleaks.keys _ hinv.leaks fun c hc _ => ⟨c, mem_of_mem_filter hc, rfl⟩

theorem LifeInv.leaksMeet (pos : UInt64) : LeaksMeet e (e.kernelCheckLeaks pos) := by
  have hleaks := leaksOf_kernelCheckLeaks e pos
  have hinv' := hinv.checkLeaks pos
  refine ⟨by rw [kernelCheckLeaks_eq], kernelCheckLeaks_heap e pos, fun c hc => ?_, fun f hf => ?_⟩
  · obtain ⟨f, hf, hkey⟩ := hleaks.found c hc
    have hchunk : c ∈ e.kernel.heap.chunks := mem_of_mem_filter hc
    simp only [Finding.key, leakKey, Prod.mk.injEq] at hkey
    refine ⟨f, eq_singleton_of_nodup Finding.key ?_ ?_ ?_⟩
    · exact hinv'.nodup.sublist (filter_sublist.map _)
    · exact mem_filter.mpr ⟨hf, decide_eq_true ⟨hkey.1, hkey.2.2⟩⟩
    -- a leak finding about this address is about this chunk
    intro g hg
    obtain ⟨hg, hgc⟩ := mem_filter.mp hg
    obtain ⟨hleak, hga⟩ := of_decide_eq_true hgc
    obtain ⟨d, hd, hpair⟩ := hinv'.leaks g hg hleak
    rw [kernelCheckLeaks_heap] at hd
    simp only [Finding.key, Prod.mk.injEq] at hpair
    obtain rfl := hinv.sound.ledger.eq_of_addr hd hchunk (hpair.2.symm.trans hga)
    simp only [Finding.key, Prod.mk.injEq]
    exact ⟨hleak.trans hkey.1.symm, hpair.1.trans hkey.2.1.symm, hga.trans hkey.2.2.symm⟩
  · refine hleaks.others f fun c hc hkey => hf c hc ?_
    simp only [Finding.key, leakKey, Prod.mk.injEq] at hkey
    exact ⟨hkey.1, hkey.2.2⟩

theorem LifeInv.of_evolves (hsound : Sound os e'.kernel.heap)
    (hevolves : Evolves e.kernel.heap e'.kernel.heap)
    (hfindings : e'.kernel.findings = e.kernel.findings ∨ ∃ key, key.1 ≠ .leak ∧
      OneMore key e.kernel.findings e'.kernel.findings) : LifeInv os e' := by
  rcases hfindings with hsame | ⟨key, hkey, hone⟩
  · refine ⟨hsound, hsame ▸ hinv.nodup, fun f hf => hevolves.ofChunks (hinv.leaks f ?_)⟩
    exact hsame ▸ hf
  · refine ⟨hsound, hone.nodup hinv.nodup, fun f hf => hevolves.ofChunks ?_⟩
    exact hone.forall_mem hinv.leaks (fun hleak => (hkey hleak).elim) f hf

end Steps

section Accounting

variable {os : KernelOs} {e e' : KernelEmu}

theorem Allocates.meets {call : AllocCall} {zeroed : Bool} {ptr : Nat}
    (halloc : Allocates e e' call zeroed ptr) :
    e'.kernel.findings = e.kernel.findings ∧ Evolves e.kernel.heap e'.kernel.heap := by
  cases halloc with
  | refused hptr hmaps hkernel =>
    rw [hkernel]
    exact ⟨rfl, .refl _⟩
  | recorded heap c hrec hmap hkernel =>
    rw [hkernel]
    refine ⟨rfl, fun i d hd => ⟨d, ?_, rfl, fun _ => rfl⟩⟩
    rw [(records_of_recordAlloc hrec).chunks]
    exact (List.getElem?_append_left (List.getElem?_eq_some_iff.mp hd).1).trans hd

def KernelOp.isRejected (e : KernelEmu) : KernelOp → Bool
  | .free ptr api pos rip => (e.kernelFree ptr api pos rip).any fun r => !r.2
  | .alloc _ _ | .checkLeaks _ => false

def rejections : KernelEmu → List KernelOp → Nat
  | _, [] => 0
  | e, op :: ops => (if op.isRejected e then 1 else 0) +
      match op.step e with
      | some e' => rejections e' ops
      | none => 0

theorem LifeInv.step (hinv : LifeInv os e) {op : KernelOp} (hstep : op.step e = some e') :
    LifeInv os e' ∧ Evolves e.kernel.heap e'.kernel.heap ∧
      hitsOf isRejection e'.kernel.findings = hitsOf isRejection e.kernel.findings +
        if op.isRejected e then 1 else 0 := by
  have hsound := sound_of_step hinv.sound hstep
  cases op with
  | alloc call zeroed =>
    obtain ⟨⟨e₁, ptr⟩, halloc, rfl⟩ := map_eq_some_iff.mp hstep
    obtain ⟨hfindings, hevolves⟩ := (allocates_of_kernelAlloc halloc).meets
    refine ⟨hinv.of_evolves hsound hevolves (.inl hfindings), hevolves, ?_⟩
    rw [hfindings]
    rfl
  | free ptr api pos rip =>
    obtain ⟨⟨e₁, ok⟩, hfree, rfl⟩ := map_eq_some_iff.mp hstep
    obtain ⟨⟨-, haccepts, hrejects⟩, hevolves⟩ :=
      meets_of_frees hinv.sound (frees_of_kernelFree hfree)
    rw [KernelOp.isRejected, hfree, any_some]
    cases ok with
    | true =>
      have hfindings := (haccepts rfl).findings
      refine ⟨hinv.of_evolves hsound hevolves (.inl hfindings), hevolves, ?_⟩
      rw [hfindings]
      rfl
    | false =>
      obtain ⟨key, hkind, hone⟩ : ∃ key, isRejection key.1 = true ∧
          OneMore key e.kernel.findings e₁.kernel.findings := by
        by_cases hfreed : FreedBase e.kernel.heap ptr
        · obtain ⟨key, hkind, hone⟩ := (hrejects rfl).double hfreed
          exact ⟨key, by rw [hkind]; rfl, hone⟩
        · obtain ⟨key, hkind, hone⟩ := (hrejects rfl).invalid hfreed
          exact ⟨key, by rw [hkind]; rfl, hone⟩
      have hleak : key.1 ≠ .leak := fun hleak => by rw [hleak] at hkind; cases hkind
      refine ⟨hinv.of_evolves hsound hevolves (.inr ⟨key, hleak, hone⟩), hevolves, ?_⟩
      rw [hone.hitsOf_eq, hkind]
      rfl
  | checkLeaks pos =>
    cases hstep
    refine ⟨hinv.checkLeaks pos, kernelCheckLeaks_heap e pos ▸ .refl _, ?_⟩
    rw [(leaksOf_kernelCheckLeaks e pos).hits]
    rfl

theorem LifeInv.hits_of_run (hinv : LifeInv os e) {ops : List KernelOp}
    (hrun : run KernelOp.step e ops = some e') : hitsOf isRejection e'.kernel.findings =
      hitsOf isRejection e.kernel.findings + rejections e ops := by
  induction ops generalizing e with
  | nil =>
    cases hrun
    rfl
  | cons op ops ih =>
    obtain ⟨e₁, hstep, hrun⟩ := bind_eq_some_iff.mp hrun
    obtain ⟨hinv₁, -, hhits⟩ := hinv.step hstep
    rw [ih hinv₁ hrun, hhits, rejections, hstep, Nat.add_assoc]

theorem LifeInv.evolves_of_run (hinv : LifeInv os e) {ops : List KernelOp}
    (hrun : run KernelOp.step e ops = some e') :
    LifeInv os e' ∧ Evolves e.kernel.heap e'.kernel.heap :=
  run_related (LifeInv os) (R := fun e e' => Evolves e.kernel.heap e'.kernel.heap)
    (fun _ => .refl _) Evolves.trans
    (fun _ _ _ hinv _ hstep => ⟨(hinv.step hstep).1, (hinv.step hstep).2.1⟩) hinv
    (along_true e ops) hrun

theorem LifeInv.opMeets_iff (hinv : LifeInv os e) (op : KernelOp) : OpMeets e op ↔ OpFits e op := by
  cases op with
  | alloc call zeroed =>
    exact iff_of_true (fun _ _ halloc => (allocates_of_kernelAlloc halloc).meets) trivial
  | free ptr api pos rip =>
    refine (and_iff_left fun e' ok hfree => ?_).trans (freeMeets_iff hinv.sound)
    exact (meets_of_frees hinv.sound (frees_of_kernelFree hfree)).2
  | checkLeaks pos => exact iff_of_true (hinv.leaksMeet pos) trivial

end Accounting

/-- Along every run of a fresh environment: each call does what is asked of it if and only if no
release poisons past the end of a map; the rejected releases are the hits of their findings; and a
chunk that was freed at some point stays so. -/
theorem life_cycle_iff (os : KernelOs) (m : Maps) (e₀ : KernelEmu)
    (hinit : kernelInit m os = some e₀) (ops : List KernelOp) :
    (Along KernelOp.step OpMeets e₀ ops ↔ Along KernelOp.step OpFits e₀ ops) ∧
      (∀ e, run KernelOp.step e₀ ops = some e →
        hitsOf isRejection e.kernel.findings = rejections e₀ ops) ∧
      ∀ k e₁ e, run KernelOp.step e₀ (ops.take k) = some e₁ →
        run KernelOp.step e₁ (ops.drop k) = some e → Evolves e₁.kernel.heap e.kernel.heap := by
  have hinv := lifeInv_init hinit
  refine ⟨?_, fun e hrun => ?_, fun k e₁ e hrun hrest => ?_⟩
  · exact along_iff (LifeInv os) (fun e op hinv => hinv.opMeets_iff op)
      (fun e op e' hinv _ hstep => (hinv.step hstep).1) hinv
  · obtain ⟨m', -, he⟩ := bind_eq_some_iff.mp hinit
    cases he
    rw [hinv.hits_of_run hrun]
    exact Nat.zero_add _
  · exact ((hinv.evolves_of_run hrun).1.evolves_of_run hrest).2

def doubleFree : List KernelOp :=
  [.alloc (vmalloc 1) true, .free 0xffffc90000000000 "vfree" 0 0,
    .free 0xffffc90000000000 "vfree" 1 1, .checkLeaks 2]

theorem life_cycle_iff_doubleFree : ∃ e₀, kernelInit Maps.default .linux = some e₀ ∧
    (Along KernelOp.step OpMeets e₀ doubleFree ↔ Along KernelOp.step OpFits e₀ doubleFree) ∧
      (∀ e, run KernelOp.step e₀ doubleFree = some e →
        hitsOf isRejection e.kernel.findings = rejections e₀ doubleFree) ∧
      ∀ k e₁ e, run KernelOp.step e₀ (doubleFree.take k) = some e₁ →
        run KernelOp.step e₁ (doubleFree.drop k) = some e →
          Evolves e₁.kernel.heap e.kernel.heap := by
  obtain ⟨m, hinit, -⟩ := kernelInit_default .linux
  exact ⟨_, hinit, life_cycle_iff .linux Maps.default _ hinit doubleFree⟩

/-- A chunk that starts at the Linux stack has no map of its own, and its poison does not fit into
the stack. -/
theorem free_onto_stack : ∃ e₀ e : KernelEmu, kernelInit Maps.default .linux = some e₀ ∧
    run KernelOp.step e₀ [.alloc (vmalloc 0xff000) false, .alloc (vmalloc 0x30000) false] = some e ∧
      LiveBase e.kernel.heap 0xffffc90000100000 ∧
        e.kernelFree 0xffffc90000100000 "vfree" 0 0 = none := by
  obtain ⟨e₀, e₁, hinit, halloc, hinv, hcursor⟩ := linux_stack_next
  have hres : Reserves e₁.kernel.heap (vmalloc 0x30000) 0x30000 0xffffc90000100000 := by
    refine ⟨by decide, ?_, by decide⟩
    rw [show e₁.kernel.heap.cursor (vmalloc 0x30000).region = _ from hcursor]
    decide
  obtain ⟨h', c, hrec, haddr, hsize⟩ := hres.recordAlloc hinv.sound.serial_lt (by
    rw [hinv.sound.window]
    decide)
  obtain ⟨e₂, halloc₂, hheap, tlb, hmaps⟩ := hinv.refused hrec false (by rw [haddr]; decide)
    (by rw [haddr]; decide)
  have hrun : run KernelOp.step e₀
      [.alloc (vmalloc 0xff000) false, .alloc (vmalloc 0x30000) false] = some e₂ := by
    rw [run, KernelOp.step, halloc, map_some, bind_some, run, KernelOp.step, halloc₂]
    rfl
  have hmem : c ∈ e₂.kernel.heap.chunks := by
    rw [hheap, (records_of_recordAlloc hrec).chunks]
    exact mem_append_right _ (mem_singleton.mpr rfl)
  have hlive : c.isFreed = false := by
    rw [KernelChunk.isFreed, (fresh_of_recordAlloc hrec).live]
    rfl
  refine ⟨e₀, e₂, hinit, hrun, ⟨c, hmem, haddr, hlive⟩, ?_⟩
  by_contra hsome
  obtain ⟨⟨e', ok⟩, hfree⟩ := ne_none_iff_exists'.mp hsome
  have hs := sound_of_run hinit hrun
  have hfits := (freeMeets_iff hs).mp
    ⟨e', ok, hfree, (meets_of_frees hs (frees_of_kernelFree hfree)).1⟩ c hmem haddr hlive
  -- the lookup finds the stack
  have hstack := mem_append_left (e₁.kernel.heap.chunks.map ofChunk) (stackRange_mem .linux)
  obtain ⟨key, r, hget, hr⟩ := (hinv.holds.mem _).mp hstack
  simp only [ofRegion, stackRange, Named.mk.injEq] at hr
  have hinside : r.inside c.addr = true := by
    rw [inside_eq_true, hinv.holds.wf.sized key r hget, hr.2.1, hr.2.2, haddr]
    decide
  have hwf : e₂.maps.Wf := hmaps ▸ hinv.holds.wf.congr rfl rfl rfl
  have hbound := hfits key r (by
    rw [hwf.getMemByAddrMut_fst, hwf.searchMaps_eq_some, hmaps]
    exact ⟨hget, hinside⟩)
  rw [haddr, hsize, hr.2.1, hr.2.2] at hbound
  revert hbound
  decide

end Mwemu.Kernel
