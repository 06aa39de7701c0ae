import Mwemu.O1Heap.Search

/-!
# Snapshots of the heap

A snapshot lists the fragments from the first one on, which is found from any entry of the index by
the links back. A clone is built from it with new nodes. If the entry leads to the list, the clone has
the same row of blocks, and then no query, request or release can tell it from the heap.

The index is a hash map, so any entry may come first. An entry may be stale, and its links back may
end at a node that is not in the list.
-/

namespace Mwemu.O1Heap

open Mwemu.Lib List Option Nat

structure O1HeapSnapshot where
  base : Nat
  diagnostics : Diagnostics
  fragments : List Block
  hashKeys : List Nat

/-- The fragments that `any_fragment` may return, for the orders in which the index is iterated. -/
def anyFragments (h : O1Heap) : List Nat :=
  if h.hashes.toList = [] then ((List.range numBinsMax).findSome? h.bins).toList
  else h.hashes.toList.map Prod.snd

def firstFragment (h : O1Heap) (fuel any : Nat) : Option Nat :=
  lastFrom (fun i => h.upgrade (h.nodes i).prev) fuel any

/-- The snapshot for a choice of `any_fragment`, or `none` when the fuel does not suffice. -/
def snapshot (h : O1Heap) (fuel any : Nat) : Option O1HeapSnapshot := do
  let first ← h.firstFragment fuel any
  let ids ← walk (fun i => (h.nodes i).next) fuel (some first)
  return ⟨h.base, h.diagnostics, h.row ids, h.hashes.toList.map Prod.fst⟩

def appendFragment (h : O1Heap) (prev : Option Nat) (b : Block) : O1Heap :=
  { h with
    nodes := fun i =>
      if i = h.fresh then { Fragment.new b.offset b.size with used := b.used, prev := prev }
      else if prev = some i then { h.nodes i with next := some h.fresh }
      else h.nodes i
    fresh := h.fresh + 1 }

def rebuild : O1Heap → Option Nat → OrdMap Nat → List Block → Option (O1Heap × OrdMap Nat)
  | h, _, byOffset, [] => some (h, byOffset)
  | h, prev, byOffset, b :: bs =>
    let id := h.fresh
    let h := h.appendFragment prev b
    (if b.used then some h else h.rebin id).bind fun h =>
      rebuild h (some id) (byOffset.insert b.offset id) bs

def reindex (byOffset : OrdMap Nat) (keys : List Nat) : OrdMap Nat :=
  keys.foldl (fun hashes key => (byOffset.get key).elim hashes (hashes.insert key)) .empty

def blank (base : Nat) (diagnostics : Diagnostics) : O1Heap where
  base := base
  bins := fun _ => none
  hashes := .empty
  nonemptyBinMask := 0
  diagnostics := diagnostics
  nodes := fun _ => Fragment.new 0 0
  fresh := 0

def fromSnapshot (snap : O1HeapSnapshot) : Option O1Heap := do
  let (h, byOffset) ← rebuild (blank snap.base snap.diagnostics) none .empty snap.fragments
  return { h with hashes := reindex byOffset snap.hashKeys }

def clone (h : O1Heap) (fuel any : Nat) : Option O1Heap :=
  (h.snapshot fuel any).bind fromSnapshot

/-! ### The entries of the clone -/

theorem get_reindex (byOffset : OrdMap Nat) (keys : List Nat) (o : Nat) :
    (reindex byOffset keys).get o = if o ∈ keys then byOffset.get o else none := by
  have hfold : ∀ hashes : OrdMap Nat,
      (keys.foldl (fun hashes key => (byOffset.get key).elim hashes (hashes.insert key)) hashes).get o =
        if o ∈ keys then (byOffset.get o).or (hashes.get o) else hashes.get o := by
    induction keys with
    | nil => exact fun hashes => rfl
    | cons key keys ih =>
      intro hashes
      rw [foldl_cons, ih]
      have hget : ((byOffset.get key).elim hashes (hashes.insert key)).get o =
          if o = key then (byOffset.get o).or (hashes.get o) else hashes.get o := by
        split_ifs with heq
        · subst heq
          cases byOffset.get o with
          | none => rfl
          | some id => exact OrdMap.get_insert_self _ _
        · cases byOffset.get key with
          | none => rfl
          | some id => exact OrdMap.get_insert_of_ne heq
      rw [hget]
      by_cases hkey : o = key
      · subst hkey
        cases byOffset.get o <;> simp
      · simp [hkey]
  rw [reindex, hfold, show OrdMap.empty.get o = none from rfl, or_none]

/-! ### Building the list -/

theorem nodes_appendFragment (h : O1Heap) (prev : Option Nat) (b : Block) {i : Nat}
    (hi : i ≠ h.fresh) : (h.appendFragment prev b).nodes i =
      { h.nodes i with next := if prev = some i then some h.fresh else (h.nodes i).next } := by
  rw [appendFragment]
  dsimp only
  rw [if_neg hi]
  split_ifs <;> rfl

theorem nodes_appendFragment_fresh (h : O1Heap) (prev : Option Nat) (b : Block) :
    (h.appendFragment prev b).nodes h.fresh =
      { Fragment.new b.offset b.size with used := b.used, prev := prev } :=
  if_pos rfl

variable {h : O1Heap} {ids : List Nat}

theorem shape_appendFragment {lists : Nat → List Nat} {parked : Set Nat}
    (hs : Shape h ids lists parked) (b : Block) :
    Shape (h.appendFragment ids.getLast? b) (ids ++ [h.fresh]) lists (insert h.fresh parked) := by
  have hnew : ∀ x ∈ ids, x ≠ h.fresh := fun x hx => Nat.ne_of_lt (hs.made hx)
  have hlast : ∀ x ∈ ids.dropLast, ids.getLast? ≠ some x := fun x hx heq =>
    last_notMem_dropLast hs.nodup heq hx
  refine ⟨?_, ?_, ?_, ?_, ?_, ?_, ?_⟩
  · exact nodup_append.mpr ⟨hs.nodup, nodup_singleton _, fun x hx y hy =>
      mem_singleton.mp hy ▸ hnew x hx⟩
  · intro x hx
    rcases mem_append.mp hx with hx | hx
    · exact lt_succ_of_lt (hs.made hx)
    · rw [mem_singleton.mp hx]
      exact lt_succ_self _
  · refine Linked.append.mpr ⟨?_, ?_, ?_, trivial⟩
    · refine hs.linked.relink_last (fun x hx => ?_) (fun x hx => ?_) fun x hx => ?_
      · rw [nodes_appendFragment _ _ _ (hnew x hx)]
      · rw [nodes_appendFragment _ _ _ (hnew x (dropLast_subset _ hx)), if_neg (hlast x hx)]
      · rw [nodes_appendFragment _ _ _ (hnew x (mem_of_getLast? hx)),
          if_pos (show ids.getLast? = some x from hx)]
        rfl
    · dsimp only
      rw [nodes_appendFragment_fresh, or_none]
    · dsimp only
      rw [nodes_appendFragment_fresh]
      rfl
  · refine hs.bins.of_eq rfl rfl (le_succ _) fun i hi => ?_
    rw [nodes_appendFragment _ _ _ (Nat.ne_of_lt hi)]
    exact ⟨rfl, rfl⟩
  · intro i x
    by_cases hx : x = h.fresh
    · subst hx
      refine ⟨fun hmem => absurd (hs.bins.made hmem) (lt_irrefl _), fun hmem => ?_⟩
      exact absurd (Set.mem_insert _ _) hmem.2.1
    · rw [hs.binned, nodes_appendFragment _ _ _ hx, mem_append, mem_singleton, Set.mem_insert_iff]
      simp only [hx, or_false, false_or]
  · intro x hx hpark hused
    obtain ⟨hne, hpark⟩ := not_or.mp hpark
    have hx : x ∈ ids := (mem_append.mp hx).resolve_right fun h => hne (mem_singleton.mp h)
    rw [nodes_appendFragment _ _ _ hne] at hused ⊢
    exact hs.indexed hx hpark hused
  · intro o x hget
    obtain ⟨hlt, hoffset, hin⟩ := hs.index hget
    rw [nodes_appendFragment _ _ _ (Nat.ne_of_lt hlt)]
    refine ⟨lt_succ_of_lt hlt, hoffset, fun hused => ?_⟩
    exact (hin hused).imp (mem_append_left _) (Set.mem_insert_of_mem _)

/-- The fragments so far, with the used ones not in the index yet. -/
structure Building (h : O1Heap) (ids : List Nat) (byOffset : OrdMap Nat) (bs : List Block) : Prop where
  shape : ∃ lists parked, Shape h ids lists parked ∧ ∀ x ∈ parked, x ∈ ids ∧ (h.nodes x).used = true
  row : h.row ids = bs
  hashes : h.hashes = .empty
  byOffset : ∀ {o id}, byOffset.get o = some id ↔ id ∈ ids ∧ (h.nodes id).offset = o

theorem building_blank (base : Nat) (diagnostics : Diagnostics) :
    Building (blank base diagnostics) [] .empty [] where
  shape := by
    refine ⟨fun _ => [], ∅, ⟨nodup_nil, nofun, trivial, ?_, ?_, nofun, nofun⟩, nofun⟩
    · exact ⟨fun _ => rfl, fun _ => trivial, fun _ => nodup_nil, nofun, nofun,
        fun hne => absurd rfl hne, fun i => by simp [blank]⟩
    · exact fun i id => ⟨nofun, fun h => absurd h.1 not_mem_nil⟩
  row := rfl
  hashes := rfl
  byOffset := ⟨nofun, fun h => absurd h.1 not_mem_nil⟩

variable {byOffset : OrdMap Nat} {bs : List Block}

theorem Building.append (hb : Building h ids byOffset bs) {b : Block} (hmin : 256 ≤ b.size)
    (hsmall : b.size < 2 ^ 32) (hnew : ∀ c ∈ bs, c.offset ≠ b.offset) :
    ∃ h', (if b.used then some (h.appendFragment ids.getLast? b)
        else (h.appendFragment ids.getLast? b).rebin h.fresh) = some h' ∧
      Building h' (ids ++ [h.fresh]) (byOffset.insert b.offset h.fresh) (bs ++ [b]) ∧
      h'.base = h.base ∧ h'.diagnostics = h.diagnostics := by
  obtain ⟨lists, parked, hs, hparked⟩ := hb.shape
  have hs₁ := shape_appendFragment hs b
  have hfresh := nodes_appendFragment_fresh h ids.getLast? b
  have hne : ∀ x ∈ ids, x ≠ h.fresh := fun x hx => Nat.ne_of_lt (hs.made hx)
  have hblock : ∀ x ∈ ids, (h.appendFragment ids.getLast? b).blockOf x = h.blockOf x := fun x hx => by
    rw [blockOf, nodes_appendFragment _ _ _ (hne x hx)]
    rfl
  obtain ⟨h', hcall, hsame, lists', parked', hs', hparked'⟩ : ∃ h',
      (if b.used then some (h.appendFragment ids.getLast? b)
        else (h.appendFragment ids.getLast? b).rebin h.fresh) = some h' ∧
      SameCore (h.appendFragment ids.getLast? b) h' ∧
      ∃ lists' parked', Shape h' (ids ++ [h.fresh]) lists' parked' ∧
        ∀ x ∈ parked', x ∈ ids ++ [h.fresh] ∧ (h'.nodes x).used = true := by
    have hold : ∀ x ∈ parked, x ∈ ids ++ [h.fresh] ∧
        ((h.appendFragment ids.getLast? b).nodes x).used = true := fun x hx => by
      obtain ⟨hx, hused⟩ := hparked x hx
      rw [nodes_appendFragment _ _ _ (hne x hx)]
      exact ⟨mem_append_left _ hx, hused⟩
    cases hused : b.used with
    | true =>
      refine ⟨_, if_pos rfl, .refl _, lists, _, hs₁, fun x hx => ?_⟩
      rcases Set.mem_insert_iff.mp hx with rfl | hx
      · exact ⟨by simp, by rw [hfresh]; exact hused⟩
      · exact hold x hx
    | false =>
      have hmem : h.fresh ∈ ids ++ [h.fresh] := by simp
      obtain ⟨h', hrebin, hsame, lists', hs'⟩ := hs₁.rebin hmem
        (Set.mem_insert _ _) (by rw [hfresh]; exact hused) (by rw [hfresh]; exact hmin)
        (by rw [hfresh]; exact binIndex_lt hsmall)
      refine ⟨h', (if_neg Bool.false_ne_true).trans hrebin, hsame, lists', _, hs', fun x hx => ?_⟩
      have hx := (Set.mem_insert_iff.mp hx.1).resolve_left hx.2
      rw [hsame.used]
      exact hold x hx
  refine ⟨h', hcall, ⟨⟨lists', parked', hs', hparked'⟩, ?_, ?_, ?_⟩, hsame.base, hsame.diagnostics⟩
  · have hrow : h'.row (ids ++ [h.fresh]) = (h.appendFragment ids.getLast? b).row (ids ++ [h.fresh]) :=
      row_congr fun x _ => hsame.blockOf x
    rw [hrow, row_append, row_congr hblock, hb.row, row_cons, blockOf, hfresh]
    rfl
  · rw [hsame.hashes]
    exact hb.hashes
  intro o id
  have hoffset : (h'.nodes id).offset = if id = h.fresh then b.offset else (h.nodes id).offset := by
    rw [hsame.offset]
    split_ifs with heq
    · rw [heq, hfresh]
      rfl
    · rw [nodes_appendFragment _ _ _ heq]
  rw [hoffset, mem_append, mem_singleton]
  by_cases ho : o = b.offset
  · subst ho
    rw [OrdMap.get_insert_self, Option.some.injEq]
    constructor
    · rintro rfl
      exact ⟨.inr rfl, if_pos rfl⟩
    rintro ⟨hid, heq⟩
    by_contra hid'
    rw [if_neg (Ne.symm hid')] at heq
    have hid := hid.resolve_right (Ne.symm hid')
    exact hnew (h.blockOf id) (hb.row ▸ mem_map_of_mem hid) heq
  · rw [OrdMap.get_insert_of_ne ho, hb.byOffset]
    by_cases hid : id = h.fresh
    · subst hid
      rw [if_pos rfl]
      refine ⟨fun h => absurd rfl (hne _ h.1), fun h => absurd h.2.symm ho⟩
    · rw [if_neg hid]
      simp only [hid, or_false]

theorem Building.rebuild {front : List Block} {cap : Nat} (hb : Building h ids byOffset front)
    (hlayout : Layout cap (front ++ bs)) (hcap : cap < 2 ^ 32) :
    ∃ h' ids' byOffset', O1Heap.rebuild h ids.getLast? byOffset bs = some (h', byOffset') ∧
      Building h' ids' byOffset' (front ++ bs) ∧ h'.base = h.base ∧
      h'.diagnostics = h.diagnostics := by
  induction bs generalizing h ids byOffset front with
  | nil => exact ⟨h, ids, byOffset, rfl, by rwa [append_nil], rfl, rfl⟩
  | cons b bs ih =>
    have hstop := hlayout.stop_le
    obtain ⟨-, -, hfront⟩ := pairwise_append.mp hlayout.pairwise_offset_ne
    obtain ⟨h₁, hcall, hb₁, hbase₁, hdiagnostics₁⟩ := hb.append (hlayout.min b (by simp)) (by omega)
      fun c hc => hfront c hc b mem_cons_self
    rw [append_cons] at hlayout ⊢
    obtain ⟨h', ids', byOffset', hrest, hb', hbase, hdiagnostics⟩ := ih hb₁ hlayout
    refine ⟨h', ids', byOffset', ?_, hb', hbase.trans hbase₁, hdiagnostics.trans hdiagnostics₁⟩
    rw [List.getLast?_concat] at hrest
    exact bind_eq_some_iff.mpr ⟨h₁, hcall, hrest⟩

/-! ### The clone -/

theorem Rep.mem_keys (hr : Rep h ids) {b : Block} (hb : b ∈ h.row ids) (hused : b.used = true) :
    b.offset ∈ h.hashes.toList.map Prod.fst := by
  obtain ⟨id, hid, rfl⟩ := mem_map.mp hb
  have hget := (hr.indexed_iff.mpr ⟨hid, hused, rfl⟩).1
  exact mem_map.mpr ⟨_, OrdMap.get_eq_some.mp hget, rfl⟩

theorem Building.shape_reindex (hb : Building h ids byOffset bs) {keys : List Nat}
    (hkeys : ∀ b ∈ bs, b.used = true → b.offset ∈ keys) :
    ∃ lists, Shape { h with hashes := reindex byOffset keys } ids lists ∅ := by
  obtain ⟨lists, parked, hs, hparked⟩ := hb.shape
  refine ⟨lists, hs.nodup, hs.made, hs.linked, ?_, ?_, ?_, ?_⟩
  · exact hs.bins.of_eq rfl rfl (le_refl _) fun _ _ => ⟨rfl, rfl⟩
  · intro i x
    rw [hs.binned]
    refine and_congr_right fun _ => ⟨fun h => ⟨Set.notMem_empty x, h.2⟩, fun h => ⟨fun hx => ?_, h.2⟩⟩
    have hfree := h.2.1
    rw [(hparked x hx).2] at hfree
    cases hfree
  · intro x hx _ hused
    have hkey := hkeys (h.blockOf x) (hb.row ▸ mem_map_of_mem hx) hused
    exact (get_reindex _ _ _).trans ((if_pos hkey).trans (hb.byOffset.mpr ⟨hx, rfl⟩))
  · intro o x hget
    rw [get_reindex] at hget
    split_ifs at hget
    obtain ⟨hx, hoffset⟩ := hb.byOffset.mp hget
    exact ⟨hs.made hx, hoffset, fun _ => .inl hx⟩

theorem Rep.fromSnapshot (hr : Rep h ids) :
    ∃ h', fromSnapshot ⟨h.base, h.diagnostics, h.row ids, h.hashes.toList.map Prod.fst⟩ = some h' ∧
      Becomes h h' (h.row ids) := by
  obtain ⟨h₁, ids', byOffset, hrebuild, hb, hbase, hdiagnostics⟩ :=
    (building_blank h.base h.diagnostics).rebuild (hr.layout : Layout _ ([] ++ h.row ids)) hr.small
  have hdiagnostics : h₁.diagnostics = h.diagnostics := hdiagnostics
  refine ⟨_, bind_eq_some_iff.mpr ⟨_, hrebuild, rfl⟩, hbase, by rw [hdiagnostics], ids', ?_, hb.row⟩
  refine ⟨hb.shape_reindex fun b hb hused => hr.mem_keys hb hused, ?_, ?_, ?_⟩
  · change Layout h₁.diagnostics.capacity (h₁.row ids')
    rw [hb.row, hdiagnostics]
    exact hr.layout
  · change h₁.diagnostics.allocated = usedTotal (h₁.row ids')
    rw [hb.row, hdiagnostics]
    exact hr.allocated
  · change h₁.diagnostics.capacity < 2 ^ 32
    rw [hdiagnostics]
    exact hr.small

/-- The links back from the node, as far as their nodes are held, lead to a fragment of the list. -/
def Anchored (h : O1Heap) (ids : List Nat) (any : Nat) : Prop :=
  ∃ x ∈ ids, Relation.ReflTransGen (fun a b => h.upgrade (h.nodes a).prev = some b) any x

theorem Rep.upgrade_prev (hr : Rep h ids) {x : Nat} (hx : x ∈ ids) :
    h.upgrade (h.nodes x).prev = (h.nodes x).prev := by
  obtain ⟨lists, hs⟩ := hr.shape
  obtain ⟨front, back, rfl⟩ := append_of_mem hx
  rw [hs.linked.at_split.2]
  cases hlast : front.getLast? with
  | none => rfl
  | some y =>
    have hy : y ∈ front ++ x :: back := mem_append_left _ (mem_of_getLast? hlast)
    exact upgrade_eq_some (hs.held hy (Set.notMem_empty y))

theorem Rep.clone (hr : Rep h ids) {any : Nat} (hany : Anchored h ids any) :
    ∃ fuel₀, ∀ fuel ≥ fuel₀, ∃ h', h.clone fuel any = some h' ∧ Becomes h h' (h.row ids) := by
  obtain ⟨x, hx, hreach⟩ := hany
  obtain ⟨lists, hs⟩ := hr.shape
  obtain ⟨first, hfirst⟩ : ∃ first, ids.head? = some first := by
    obtain ⟨y, ys, rfl⟩ := exists_cons_of_ne_nil (ne_nil_of_mem hx)
    exact ⟨y, rfl⟩
  obtain ⟨n, hn⟩ := hs.linked.lastFrom_eq (fun y hy => hr.upgrade_prev hy) hx
  rw [hfirst] at hn
  obtain ⟨m, hm⟩ := lastFrom_of_reaches hreach ⟨n, hn⟩
  obtain ⟨h', hclone, hbecomes⟩ := hr.fromSnapshot
  refine ⟨max m ids.length, fun fuel hfuel => ⟨h', ?_, hbecomes⟩⟩
  have hwalk := hs.linked.walk_eq (le_trans (le_max_right m _) hfuel)
  rw [hfirst] at hwalk
  refine bind_eq_some_iff.mpr ⟨_, bind_eq_some_iff.mpr ⟨first, ?_, ?_⟩, hclone⟩
  · exact lastFrom_mono hm (le_trans (le_max_left _ _) hfuel)
  · exact bind_eq_some_iff.mpr ⟨ids, hwalk, rfl⟩

/-! ### Heaps that cannot be told apart -/

/-- After the same releases both heaps have the same allocations and serve the same requests. -/
def Alike (h h' : O1Heap) : Prop :=
  ∀ as : List Nat, ∃ g g', run step h (as.map Op.free) = some g ∧
    run step h' (as.map Op.free) = some g' ∧
    (∀ x, g'.allocationSize x = g.allocationSize x ∧
      g'.checkFragmentExists x = g.checkFragmentExists x) ∧
    ∀ n, (∃ a s, g'.allocate n = some (some a, s)) ↔ ∃ a s, g.allocate n = some (some a, s)

theorem Rep.alike {h' : O1Heap} (hr : Rep h ids) (hbecomes : Becomes h h' (h.row ids)) :
    Alike h h' := by
  intro as
  induction as generalizing h h' ids with
  | nil =>
    have hsize := hr.allocationSize_of_becomes hbecomes
    obtain ⟨ids', hr', hrow⟩ := hbecomes.rep
    refine ⟨h, h', rfl, rfl, fun x => ⟨hsize x, ?_⟩, fun n => ?_⟩
    · rw [checkFragmentExists_eq, checkFragmentExists_eq, hsize]
    · rw [hr'.allocate_isSome_iff, hr.allocate_isSome_iff, hrow]
  | cons a as ih =>
    -- the release makes the same of both rows
    obtain ⟨ids', hr', hrow⟩ := hbecomes.rep
    obtain ⟨h₁, hfree, hb₁⟩ := hr.becomes_free a
    obtain ⟨h₁', hfree', hb₁'⟩ := hr'.becomes_free a
    obtain ⟨ids₁, hr₁, hrow₁⟩ := hb₁.rep
    have hoffset : h'.offsetOf a = h.offsetOf a := by rw [offsetOf, offsetOf, hbecomes.base]
    have hnext : Becomes h₁ h₁' (h₁.row ids₁) := by
      refine ⟨hb₁'.base.trans (hbecomes.base.trans hb₁.base.symm),
        hb₁'.capacity.trans (hbecomes.capacity.trans hb₁.capacity.symm), ?_⟩
      rw [hrow₁, ← hrow, ← hoffset]
      exact hb₁'.rep
    obtain ⟨g, g', hrun, hrun', hsame⟩ := ih hr₁ hnext
    exact ⟨g, g', bind_eq_some_iff.mpr ⟨h₁, hfree, hrun⟩,
      bind_eq_some_iff.mpr ⟨h₁', hfree', hrun'⟩, hsame⟩

theorem Rep.anyFragments_ne_nil (hr : Rep h ids) (hcap : 256 ≤ h.diagnostics.capacity) :
    h.anyFragments ≠ [] := by
  rw [anyFragments]
  split_ifs with hempty
  · have hne : ids ≠ [] := by
      rintro rfl
      obtain ⟨stop, htiles, -, hdiv⟩ := hr.layout.tiles
      obtain rfl : 0 = stop := htiles
      omega
    obtain ⟨id, hid⟩ := exists_mem_of_ne_nil ids hne
    have hfree : (h.nodes id).used = false := by
      by_contra hused
      rw [Bool.not_eq_false] at hused
      have hmem := hr.mem_keys (mem_map_of_mem hid) (b := h.blockOf id) hused
      rw [hempty] at hmem
      cases hmem
    -- a free fragment is in a bin, which has a head
    obtain ⟨lists, hs⟩ := hr.shape
    have hmem := (hs.binned _ id).mpr ⟨hid, Set.notMem_empty id, hfree, rfl⟩
    have hbin : h.bins (binIndex (h.nodes id).size) ≠ none := by
      rw [hs.bins.head, Ne, List.head?_eq_none_iff]
      exact ne_nil_of_mem hmem
    have hlt : binIndex (h.nodes id).size < numBinsMax :=
      lt_trans (hs.bins.small_of_mem hmem) (by decide)
    intro hnil
    rw [toList_eq_nil_iff, List.findSome?_eq_none_iff] at hnil
    exact hbin (hnil _ (mem_range.mpr hlt))
  · exact fun hnil => hempty (map_eq_nil_iff.mp hnil)

theorem Rep.anchored_of_used (hr : Rep h ids) {any : Nat} (hany : any ∈ h.anyFragments)
    (hused : (h.nodes any).used = true) : Anchored h ids any := by
  refine ⟨any, ?_, .refl⟩
  rw [anyFragments] at hany
  split_ifs at hany with hempty
  · obtain ⟨i, -, hbin⟩ := exists_of_findSome?_eq_some (mem_toList.mp hany)
    obtain ⟨lists, hs⟩ := hr.shape
    rw [hs.bins.head] at hbin
    exact ((hs.binned i any).mp (mem_of_head? hbin)).1
  · obtain ⟨entry, hentry, rfl⟩ := mem_map.mp hany
    exact (hr.indexed_iff.mp ⟨OrdMap.get_eq_some.mpr hentry, hused⟩).1

/-- In a run whose calls spare used fragments a clone from an entry that leads to the list cannot be
told from the heap. -/
theorem clone_alike_along_run {base : UInt64} {size : UInt32} {h₀ : O1Heap}
    (hnew : new base size = some h₀) {ops : List Op} (hops : Along step Spares h₀ ops) (k : Nat) :
    ∃ h ids, run step h₀ (ops.take k) = some h ∧ FragmentList h ids ∧ h.anyFragments ≠ [] ∧
      (∀ any ∈ h.anyFragments, (h.nodes any).used = true → Anchored h ids any) ∧
      ∀ any ∈ h.anyFragments, Anchored h ids any →
        ∃ fuel₀, ∀ fuel ≥ fuel₀, ∃ h', h.clone fuel any = some h' ∧ Alike h h' := by
  obtain ⟨h, hrun, -, hcapacity, ids, hr⟩ := run_invariant (Arena base size)
    (fun s op hs hop => hs.step hop) (arena_new hnew) (hops.take k)
  obtain ⟨lists, hs⟩ := hr.shape
  refine ⟨h, ids, hrun, ⟨hs.linked, hr.layout.tiles⟩, hr.anyFragments_ne_nil ?_,
    fun any hany hused => hr.anchored_of_used hany hused, fun any _ hany => ?_⟩
  · rw [new] at hnew
    split_ifs at hnew with hsmall
    rw [hcapacity]
    exact le_trans (by decide) (not_lt.mp hsmall)
  · obtain ⟨fuel₀, hclone⟩ := hr.clone hany
    refine ⟨fuel₀, fun fuel hfuel => ?_⟩
    obtain ⟨h', hcall, hbecomes⟩ := hclone fuel hfuel
    exact ⟨h', hcall, hr.alike hbecomes⟩

/-- A clone of a heap with two live blocks and a released one between them. -/
theorem clone_alike_released : ∃ h₀, new 0x1000 4096 = some h₀ ∧
      Along step Spares h₀ [.allocate 256, .allocate 256, .allocate 256, .free 0x1100] ∧
      ∃ h ids, run step h₀ [.allocate 256, .allocate 256, .allocate 256, .free 0x1100] = some h ∧
        FragmentList h ids ∧ h.anyFragments ≠ [] ∧
        (∀ any ∈ h.anyFragments, (h.nodes any).used = true → Anchored h ids any) ∧
        ∀ any ∈ h.anyFragments, Anchored h ids any →
          ∃ fuel₀, ∀ fuel ≥ fuel₀, ∃ h', h.clone fuel any = some h' ∧ Alike h h' := by
  have hsome : (new 0x1000 4096).isSome = true := by decide +kernel
  have hops : Along step Spares ((new 0x1000 4096).get hsome)
      [.allocate 256, .allocate 256, .allocate 256, .free 0x1100] := by
    decide +kernel +revert
  exact ⟨_, (some_get hsome).symm, hops, clone_alike_along_run (some_get hsome).symm hops 4⟩

/-- Two blocks are released. The only entry that is left is a stale one, whose link back is to a node
that is not held any more, and a clone from it has no free fragment. -/
theorem clone_from_stale_entry : ((new 0x1000 4096).bind fun h => run step h
        [.allocate 256, .allocate 256, .free 0x1000, .free 0x1100]).map
      (fun h => (h.anyFragments, (h.allocate 256).map Prod.fst,
        (h.clone 8 2).bind fun h' => (h'.allocate 256).map Prod.fst)) =
    some ([2], some (some 0x1000), some none) := by
  decide +kernel

end Mwemu.O1Heap
