import Mwemu.Maps.CodeLog

/-!
# The view of a store

What a program sees of a store at an address: whether something is mapped there, the byte and the
permission. On a well-formed store the view is the union of the views of the regions, so a change to
the region of one key is read off that region alone.
-/

namespace Mwemu

open Mwemu.Lib Option

namespace Mem64

open Maps (inside_eq_true)

def viewAt (r : Mem64) (x : Nat) : Option (UInt8 × Permission) :=
  (r.byteAt x).map fun b => (b, r.permission)

variable {r : Mem64} {v : UInt8 × Permission}

theorem viewAt_eq_some {x : Nat} : r.viewAt x = some v ↔
      r.inside x = true ∧ r.mem[x - r.baseAddr]? = some v.1 ∧ r.permission = v.2 := by
  obtain ⟨b, permission⟩ := v
  unfold viewAt byteAt
  rw [map_eq_some_iff]
  constructor
  · rintro ⟨b', hbyte, heq⟩
    rw [ite_none_right_eq_some] at hbyte
    cases heq
    exact ⟨hbyte.1, hbyte.2, rfl⟩
  · rintro ⟨hinside, hbyte, rfl⟩
    exact ⟨b, (if_pos hinside).trans hbyte, rfl⟩

theorem inside_of_viewAt {x : Nat} (hview : r.viewAt x = some v) :
    r.inside x = true :=
  (viewAt_eq_some.mp hview).1

theorem viewAt_dropped {r' : Mem64} (hbase : r.baseAddr ≤ r'.baseAddr)
    (hbottom : r'.bottomAddr = r.bottomAddr) (hpermission : r'.permission = r.permission)
    (hmem : r'.mem = r.mem.drop (r'.baseAddr - r.baseAddr)) (x : Nat) (v : UInt8 × Permission) :
    r'.viewAt x = some v ↔ r.viewAt x = some v ∧ r'.baseAddr ≤ x := by
  rw [viewAt_eq_some, viewAt_eq_some, inside_eq_true, inside_eq_true, hbottom, hpermission, hmem,
    List.getElem?_drop]
  constructor
  · rintro ⟨⟨hlow, hhigh⟩, hbyte, hv⟩
    have hidx : r'.baseAddr - r.baseAddr + (x - r'.baseAddr) = x - r.baseAddr := by omega
    rw [hidx] at hbyte
    exact ⟨⟨⟨by omega, hhigh⟩, hbyte, hv⟩, hlow⟩
  · rintro ⟨⟨⟨-, hhigh⟩, hbyte, hv⟩, hlow⟩
    have hidx : r'.baseAddr - r.baseAddr + (x - r'.baseAddr) = x - r.baseAddr := by omega
    rw [hidx]
    exact ⟨⟨hlow, hhigh⟩, hbyte, hv⟩

theorem viewAt_truncate {n : Nat} (hn : r.baseAddr + n ≤ r.bottomAddr) (x : Nat)
    (v : UInt8 × Permission) :
    (r.truncate n).viewAt x = some v ↔ r.viewAt x = some v ∧ x < r.baseAddr + n := by
  rw [viewAt_eq_some, viewAt_eq_some, inside_eq_true, inside_eq_true]
  simp only [truncate]
  constructor
  · rintro ⟨⟨hlow, hhigh⟩, hbyte, hv⟩
    rw [List.getElem?_take_of_lt (by omega)] at hbyte
    exact ⟨⟨⟨hlow, by omega⟩, hbyte, hv⟩, hhigh⟩
  · rintro ⟨⟨⟨hlow, -⟩, hbyte, hv⟩, hhigh⟩
    rw [List.getElem?_take_of_lt (by omega)]
    exact ⟨⟨hlow, hhigh⟩, hbyte, hv⟩

end Mem64

namespace Maps

variable {m m' m'' : Maps}

/-- The byte and the permission at an address, `none` if nothing is mapped there. -/
def viewAt (m : Maps) (x : Nat) : Option (UInt8 × Permission) :=
  (m.searchMaps x).bind fun found => found.2.viewAt x

variable {x : Nat}

theorem Wf.viewAt_eq_some (hwf : m.Wf) {v : UInt8 × Permission} :
    m.viewAt x = some v ↔ ∃ key r, m.memSlab.get key = some r ∧ r.viewAt x = some v := by
  unfold viewAt
  rw [bind_eq_some_iff]
  constructor
  · rintro ⟨⟨key, r⟩, hfound, hview⟩
    exact ⟨key, r, (hwf.searchMaps_eq_some.mp hfound).1, hview⟩
  · rintro ⟨key, r, hget, hview⟩
    have hinside := Mem64.inside_of_viewAt hview
    exact ⟨(key, r), hwf.searchMaps_eq_some.mpr ⟨hget, hinside⟩, hview⟩

variable {key : Nat} {r : Mem64}

theorem Wf.viewAt_of_inside (hwf : m.Wf) (hget : m.memSlab.get key = some r)
    (hinside : r.inside x = true) : m.viewAt x = r.viewAt x := by
  rw [viewAt, hwf.searchMaps_eq_some.mpr ⟨hget, hinside⟩, bind_some]

theorem viewAt_eq (m : Maps) (x : Nat) : m.viewAt x =
      (m.byteAt x).bind fun b => (m.searchMaps x).map fun found => (b, found.2.permission) := by
  unfold viewAt byteAt
  cases m.searchMaps x with
  | none => rfl
  | some found =>
    simp only [bind_some, map_some, Mem64.viewAt]
    cases found.2.byteAt x <;> rfl

theorem Wf.exists_viewAt (hwf : m.Wf) (hget : m.memSlab.get key = some r)
    (hinside : r.inside x = true) : ∃ b, m.viewAt x = some (b, r.permission) := by
  have hsized := hwf.sized key r hget
  have hrange := inside_eq_true.mp hinside
  have hidx : x - r.baseAddr < r.mem.length := by
    rw [Mem64.size] at hsized
    omega
  refine ⟨r.mem[x - r.baseAddr], ?_⟩
  rw [hwf.viewAt_of_inside hget hinside]
  exact Mem64.viewAt_eq_some.mpr ⟨hinside, List.getElem?_eq_getElem hidx, rfl⟩

theorem Wf.exists_byteAt (hwf : m.Wf) (hget : m.memSlab.get key = some r)
    (hinside : r.inside x = true) : ∃ b, m.byteAt x = some b := by
  obtain ⟨b, hview⟩ := hwf.exists_viewAt hget hinside
  rw [viewAt_eq] at hview
  obtain ⟨b', hbyte, -⟩ := bind_eq_some_iff.mp hview
  exact ⟨b', hbyte⟩

theorem viewAt_congr (hslab : m'.memSlab = m.memSlab) (hmaps : m'.maps = m.maps) (x : Nat) :
    m'.viewAt x = m.viewAt x := by
  unfold viewAt searchMaps
  rw [hslab, hmaps]

/-! ### One change -/

variable {new : Option Mem64}

theorem Changes.trans {new' : Option Mem64} (h : Changes m m' key new)
    (h' : Changes m' m'' key new') : Changes m m'' key new' := by
  constructor
  case get =>
      intro k
      rw [h'.get, h.get]
      split <;> rfl
  case maps =>
      intro base k
      rw [h'.maps]
      split
      · rfl
      · next hne => rw [h.maps, if_neg hne]
  case names =>
      intro name k
      rw [h'.names]
      split
      · rfl
      · next hne => rw [h.names, if_neg hne]
  case disjoint =>
      intro r hr k r' hne hget
      exact h'.disjoint r hr k r' hne ((h.get_of_ne hne).trans hget)
  case sized => exact h'.sized

theorem Changes.viewAt_eq_some (hchanges : Changes m m' key new) (hwf : m.Wf)
    {v : UInt8 × Permission} : m'.viewAt x = some v ↔ (∃ r, new = some r ∧ r.viewAt x = some v) ∨
      ∃ k r, k ≠ key ∧ m.memSlab.get k = some r ∧ r.viewAt x = some v := by
  rw [(hchanges.wf hwf).viewAt_eq_some]
  constructor
  · rintro ⟨k, r, hget, hview⟩
    by_cases hk : k = key
    · subst hk
      exact .inl ⟨r, hchanges.get_self.symm.trans hget, hview⟩
    · exact .inr ⟨k, r, hk, (hchanges.get_of_ne hk).symm.trans hget, hview⟩
  · rintro (⟨r, rfl, hview⟩ | ⟨k, r, hk, hget, hview⟩)
    · exact ⟨key, r, hchanges.get_self, hview⟩
    · exact ⟨k, r, (hchanges.get_of_ne hk).trans hget, hview⟩

/-- If a region keeps what it shows at the addresses in `keeps`, the store loses the other
addresses of the region. -/
theorem Changes.viewAt_cut {keeps : Nat → Prop} (hchanges : Changes m m' key new) (hwf : m.Wf)
    (hget : m.memSlab.get key = some r)
    (hnew : ∀ x v, (∃ r', new = some r' ∧ r'.viewAt x = some v) ↔ r.viewAt x = some v ∧ keeps x)
    (x : Nat) (v : UInt8 × Permission) :
    m'.viewAt x = some v ↔ m.viewAt x = some v ∧ (r.inside x = true → keeps x) := by
  rw [hchanges.viewAt_eq_some hwf, hwf.viewAt_eq_some, hnew]
  constructor
  · rintro (⟨hview, hkeeps⟩ | ⟨k, other, hne, hother, hview⟩)
    · exact ⟨⟨key, r, hget, hview⟩, fun _ => hkeeps⟩
    refine ⟨⟨k, other, hother, hview⟩, fun hinside => ?_⟩
    have hdisjoint := overlaps_eq_false.mp (hwf.disjoint key k r other hget hother (Ne.symm hne))
    have hinside' := inside_eq_true.mp (Mem64.inside_of_viewAt hview)
    rw [inside_eq_true] at hinside
    omega
  · rintro ⟨⟨k, other, hother, hview⟩, hkeeps⟩
    by_cases hk : k = key
    · subst hk
      obtain rfl := Option.some.inj (hget.symm.trans hother)
      exact .inl ⟨hview, hkeeps (Mem64.inside_of_viewAt hview)⟩
    · exact .inr ⟨k, other, hk, hother, hview⟩

end Maps

end Mwemu
