import Mwemu.Maps.Runs

/-!
# `munmap`

`unmap_range` takes a range out of the view of a store and leaves the rest of it as it is, with one
exception: a region that the range splits gets its tail back as a new region, under a name made from
the old one, and if that name is taken the tail is lost.
-/

namespace Mwemu

open Mwemu.Lib

namespace Maps

/-- `unmap_range` is the pointwise removal of the range exactly if no region that it splits has the
name for its tail taken. -/
theorem unmapRange_pointwise_iff (m : Maps) (hwf : m.Wf) (addr len : Nat) (hlen : 0 < len)
    (hbound : addr + len ≤ u64Max) : ∃ m', m.unmapRange addr len = some m' ∧ m'.Wf ∧
      ((∀ x, m'.viewAt x = if addr ≤ x ∧ x < addr + len then none else m.viewAt x) ↔
        ∀ key r, m.memSlab.get key = some r → m.KeepsTail addr (addr + len) r) := by
  have hmax : u64Max = 2 ^ 64 - 1 := rfl
  have hstop : addr + len < 2 ^ 64 := by omega
  obtain ⟨m', hm', hwf', -, hview⟩ := hwf.unmapRange_spec hstop
  refine ⟨m', hm', hwf', fun hpointwise key r hget hbase hbottom => ?_, fun hkeeps x => ?_⟩
  · -- the first address of the tail is still there
    have hinside : r.inside (addr + len) = true := inside_eq_true.mpr ⟨by omega, hbottom⟩
    obtain ⟨b, hold⟩ := hwf.exists_viewAt hget hinside
    have hnew : m'.viewAt (addr + len) = some (b, r.permission) := by
      rw [hpointwise, if_neg (by omega), hold]
    obtain ⟨-, hspared⟩ := (hview _ _).mp hnew
    rcases hspared key r hget (by omega) (by omega) hinside with hbefore | ⟨-, hkeeps⟩
    · omega
    · exact hkeeps hbase hbottom
  · apply Option.ext
    intro v
    rw [hview, Option.ite_none_left_eq_some]
    constructor
    · rintro ⟨hold, hspared⟩
      refine ⟨fun hrange => ?_, hold⟩
      obtain ⟨key, r, hget, hr⟩ := hwf.viewAt_eq_some.mp hold
      have hinside := Mem64.inside_of_viewAt hr
      have hinside' := inside_eq_true.mp hinside
      have hout := hspared key r hget (by omega) (by omega) hinside
      omega
    · rintro ⟨hout, hold⟩
      refine ⟨hold, fun key r hget _ _ _ => ?_⟩
      by_cases hbefore : x < addr
      · exact .inl hbefore
      · exact .inr ⟨by omega, hkeeps key r hget⟩

/-- Two regions, of which the second has a name that a tail of the first could take. -/
def namesakes : List Op := [.createMap "a_2" 16 1 readWrite, .createMap "a" 0 4 readWrite]

theorem namesakes_admitted :
    Along Op.step (fun m op => op.InRange m ∧ op.Admitted m) default namesakes := by
  decide +kernel

theorem exists_namesakes : ∃ m, run Op.step default namesakes = some m :=
  Option.isSome_iff_exists.mp (by decide +kernel)

/-- Up to address 3 the range splits the first region too, but the tail gets another name. -/
theorem unmapRange_pointwise_iff_namesakes :
    ∃ m m', run Op.step default namesakes = some m ∧ m.unmapRange 1 2 = some m' ∧
      ((∀ x, m'.viewAt x = if 1 ≤ x ∧ x < 1 + 2 then none else m.viewAt x) ↔
        ∀ key r, m.memSlab.get key = some r → m.KeepsTail 1 (1 + 2) r) := by
  obtain ⟨m, hrun⟩ := exists_namesakes
  obtain ⟨m', hm', -, hiff⟩ := unmapRange_pointwise_iff m (wf_of_run namesakes_admitted hrun) 1 2
    (by decide) (by decide)
  exact ⟨m, m', hrun, hm', hiff⟩

/-- The region `a` is split at address 1, its tail would be `a_2`: addresses 2 and 3 are lost. -/
theorem unmapRange_loses_tail : ∃ m, run Op.step default namesakes = some m ∧ m.Wf ∧
      m.viewAt 2 = some (0, readWrite) ∧
        (m.unmapRange 1 1).map (fun m' => m'.viewAt 2) = some none := by
  obtain ⟨m, hrun⟩ := exists_namesakes
  have hviews : (run Op.step default namesakes).map (fun m =>
      (m.viewAt 2, (m.unmapRange 1 1).map fun m' => m'.viewAt 2)) =
        some (some (0, readWrite), some none) := by
    decide +kernel
  rw [hrun, Option.map_some, Option.some.injEq, Prod.mk.injEq] at hviews
  exact ⟨m, hrun, wf_of_run namesakes_admitted hrun, hviews⟩

end Maps

end Mwemu
