import Mwemu.Cache.InstructionCache

/-!
# The lookup table of the cache

What lookups, insertions and invalidations do to the table, whatever the instructions are: an entry
lies in the line of its address, and the entries in use are the first ones of their line. Both facts
make a lookup that misses mean that no entry of the table has the address.
-/

namespace Mwemu.Cache

open List Function

theorem getIndexOf_mod (lpf len : Nat) : getIndexOf lpf len % maxCachePerLine = 0 := by
  rw [getIndexOf, Nat.mul_mod_left]

namespace InstructionCache

variable {T : Type} {c : InstructionCache T}

def home (addr : Nat) : Nat :=
  getIndexOf (lpfOf addr) 0

structure Tidy (c : InstructionCache T) : Prop where
  placed : ∀ k, ¬ (c.cacheEntries k).Free →
    home (c.cacheEntries k).lpf = k / maxCachePerLine * maxCachePerLine
  packed : ∀ k j, j < k → j / maxCachePerLine = k / maxCachePerLine →
    ¬ (c.cacheEntries k).Free → ¬ (c.cacheEntries j).Free

variable {i : Nat}

theorem home_add_div (addr : Nat) (hi : i < maxCachePerLine) :
    (home addr + i) / maxCachePerLine * maxCachePerLine = home addr := by
  have hmod : home addr % maxCachePerLine = 0 := getIndexOf_mod _ _
  have hper : maxCachePerLine = 32 := rfl
  rw [hper] at hi hmod ⊢
  omega

theorem Tidy.invalidateAll : c.invalidateAll.Tidy :=
  ⟨fun _ hused => absurd rfl hused, fun _ _ _ _ hused => absurd rfl hused⟩

theorem flushCacheLine_entry (idx k : Nat) :
    (c.flushCacheLine idx).cacheEntries k = c.cacheEntries k ∧
        ¬ (idx ≤ k ∧ k < idx + maxCachePerLine) ∨
      ((c.flushCacheLine idx).cacheEntries k).Free ∧ idx ≤ k ∧ k < idx + maxCachePerLine := by
  rw [flushCacheLine]
  by_cases hline : idx ≤ k ∧ k < idx + maxCachePerLine
  · refine .inr ⟨?_, hline⟩
    simp only [hline, and_self, if_true]
    rfl
  · exact .inl ⟨if_neg hline, hline⟩

theorem Tidy.flushCacheLine (htidy : c.Tidy) {idx : Nat} (hidx : idx % maxCachePerLine = 0) :
    (c.flushCacheLine idx).Tidy := by
  have hper : maxCachePerLine = 32 := rfl
  constructor
  · intro k hused
    rcases flushCacheLine_entry (c := c) idx k with ⟨heq, -⟩ | ⟨hfree, -⟩
    · rw [heq] at hused ⊢
      exact htidy.placed k hused
    · exact absurd hfree hused
  intro k j hjk hline hused
  rcases flushCacheLine_entry (c := c) idx k with ⟨heq, hout⟩ | ⟨hfree, -⟩
  · rcases flushCacheLine_entry (c := c) idx j with ⟨heq', -⟩ | ⟨-, hin⟩
    · rw [heq] at hused
      rw [heq']
      exact htidy.packed k j hjk hline hused
    · rw [hper] at hidx hline hout hin
      omega
  · exact absurd hfree hused

/-- A flush of lines frees entries and changes no other: what an invalidation does to the table. -/
structure Shrinks (c c' : InstructionCache T) : Prop where
  entries : ∀ k, c'.cacheEntries k = c.cacheEntries k ∨ (c'.cacheEntries k).Free
  instructions : c'.instructions = c.instructions
  next : c'.nextInstructionSlot = c.nextInstructionSlot
  slot : c'.currentInstructionSlot = c.currentInstructionSlot
  len : c'.currentDecodeLen = c.currentDecodeLen
  idx : c'.currentDecodeIdx = c.currentDecodeIdx

theorem Shrinks.trans {c' c'' : InstructionCache T} (h : Shrinks c c') (h' : Shrinks c' c'') :
    Shrinks c c'' := by
  refine ⟨fun k => ?_, h'.instructions.trans h.instructions, h'.next.trans h.next,
    h'.slot.trans h.slot, h'.len.trans h.len, h'.idx.trans h.idx⟩
  rcases h'.entries k with heq | hfree
  · rcases h.entries k with heq' | hfree
    · exact .inl (heq.trans heq')
    · exact .inr (heq ▸ hfree)
  · exact .inr hfree

theorem shrinks_flushCacheLine (idx : Nat) : Shrinks c (c.flushCacheLine idx) := by
  refine ⟨fun k => ?_, rfl, rfl, rfl, rfl, rfl⟩
  rcases flushCacheLine_entry (c := c) idx k with ⟨heq, -⟩ | ⟨hfree, -⟩
  · exact .inl heq
  · exact .inr hfree

theorem shrinks_invalidateAll : Shrinks c c.invalidateAll :=
  ⟨fun _ => .inr rfl, rfl, rfl, rfl, rfl, rfl⟩

theorem flushPages_spec (fuel page last : Nat) (htidy : c.Tidy) :
    (flushPages fuel page last c).Tidy ∧ Shrinks c (flushPages fuel page last c) := by
  induction fuel generalizing page c with
  | zero => exact ⟨htidy, fun _ => .inl rfl, rfl, rfl, rfl, rfl, rfl⟩
  | succ fuel ih =>
    have hflush := htidy.flushCacheLine (getIndexOf_mod page 0)
    rw [flushPages]
    split
    · exact ⟨hflush, shrinks_flushCacheLine _⟩
    · obtain ⟨htidy', hshrinks⟩ := ih (page + 0x1000) hflush
      exact ⟨htidy', (shrinks_flushCacheLine _).trans hshrinks⟩

theorem invalidateRange_spec (addr len blockLen : Nat) (htidy : c.Tidy) :
    (c.invalidateRange addr len blockLen).Tidy ∧
      Shrinks c (c.invalidateRange addr len blockLen) := by
  rw [invalidateRange]
  split
  · exact ⟨.invalidateAll, shrinks_invalidateAll⟩
  · exact flushPages_spec _ _ _ htidy

/-! ### Lookups -/

def atEntry (c : InstructionCache T) (entry : CachedInstruction) : InstructionCache T :=
  { c with
    currentInstructionSlot := entry.instructionKey
    currentDecodeLen := entry.instructionLen
    currentDecodeIdx := 0 }

def Has (c : InstructionCache T) (addr : Nat) : Prop :=
  ∃ k, ¬ (c.cacheEntries k).Free ∧ (c.cacheEntries k).lpf = addr

/-- The first free entry of the line at `idx`, after used ones only. -/
def FirstFree (c : InstructionCache T) (idx i : Nat) : Prop :=
  i < maxCachePerLine ∧ (c.cacheEntries (idx + i)).Free ∧
    ∀ j, j < i → ¬ (c.cacheEntries (idx + j)).Free

variable {addr : Nat}

theorem not_has_of_line (htidy : c.Tidy)
    (hline : ∀ i, i < maxCachePerLine → ¬ (c.cacheEntries (home addr + i)).Free →
      (c.cacheEntries (home addr + i)).lpf ≠ addr) : ¬ c.Has addr := by
  rintro ⟨k, hused, rfl⟩
  have hper : maxCachePerLine = 32 := rfl
  have hk := htidy.placed k hused
  have hsplit : home (c.cacheEntries k).lpf + k % maxCachePerLine = k := by
    rw [hk, hper]
    omega
  have hmod : k % maxCachePerLine < maxCachePerLine := Nat.mod_lt _ (by decide)
  refine hline (k % maxCachePerLine) hmod ?_ ?_
  · rwa [hsplit]
  · rw [hsplit]

theorem find_free_eq (idx i : Nat) :
    ((List.range maxCachePerLine).find? fun i => decide (c.cacheEntries (idx + i)).Free) = some i ↔
      c.FirstFree idx i := by
  rw [List.find?_range_eq_some, FirstFree, mem_range]
  simp only [decide_eq_true_eq, Bool.not_eq_true', decide_eq_false_iff_not]
  tauto

/-- A lookup hits an entry of the address, or misses and leaves a line with room and no entry of the
address. -/
theorem lookupEntry_cases (htidy : c.Tidy) (addr : Nat) :
    (∃ k, ¬ (c.cacheEntries k).Free ∧ (c.cacheEntries k).lpf = addr ∧
      c.lookupEntry addr 0 = (true, c.atEntry (c.cacheEntries k))) ∨
    ∃ c', c.lookupEntry addr 0 = (false, c') ∧ c'.Tidy ∧ Shrinks c c' ∧ ¬ c.Has addr ∧
      ¬ c'.Has addr ∧ ∃ i, c'.FirstFree (home addr) i := by
  cases hprobe : c.probe (home addr) addr with
  | none =>
    have htidy' := htidy.flushCacheLine (getIndexOf_mod (lpfOf addr) 0)
    have hfree : ∀ i, i < maxCachePerLine →
        ((c.flushCacheLine (home addr)).cacheEntries (home addr + i)).Free := by
      intro i hi
      rcases flushCacheLine_entry (c := c) (home addr) (home addr + i) with ⟨-, hout⟩ | ⟨hfree, -⟩
      · exact absurd ⟨Nat.le_add_right _ _, Nat.add_lt_add_left hi _⟩ hout
      · exact hfree
    refine .inr ⟨c.flushCacheLine (home addr), ?_, htidy', shrinks_flushCacheLine _, ?_, ?_, 0, ?_⟩
    · rw [lookupEntry, ← home, hprobe]
    · refine not_has_of_line htidy fun i hi _ => ?_
      rw [probe, List.find?_eq_none] at hprobe
      have hother := hprobe i (mem_range.mpr hi)
      simp only [Bool.or_eq_true, beq_iff_eq, not_or] at hother
      exact hother.2
    · exact not_has_of_line htidy' fun i hi hused => absurd (hfree i hi) hused
    · exact ⟨by decide, hfree 0 (by decide), fun j hj => absurd hj (Nat.not_lt_zero j)⟩
  | some i =>
    have hlookup : c.lookupEntry addr 0 = if (c.cacheEntries (home addr + i)).Free then (false, c)
        else (true, c.atEntry (c.cacheEntries (home addr + i))) := by
      rw [lookupEntry, ← home, hprobe]
      rfl
    rw [probe, List.find?_range_eq_some] at hprobe
    simp only [Bool.or_eq_true, decide_eq_true_eq, beq_iff_eq, mem_range,
      Bool.not_eq_true', Bool.or_eq_false_iff, decide_eq_false_iff_not, beq_eq_false_iff_ne]
      at hprobe
    obtain ⟨hfound, hi, hbefore⟩ := hprobe
    by_cases hfree : (c.cacheEntries (home addr + i)).Free
    · have hnot : ¬ c.Has addr := by
        refine not_has_of_line htidy fun j hj hused => ?_
        by_cases hji : j < i
        · exact (hbefore j hji).2
        -- behind a free entry of the line every entry is free
        exfalso
        rcases Nat.lt_or_eq_of_le (Nat.le_of_not_lt hji) with hlt | rfl
        · refine htidy.packed (home addr + j) (home addr + i) (by omega) ?_ hused hfree
          have hdivj := home_add_div addr hj
          have hdivi := home_add_div addr hi
          have hper : maxCachePerLine = 32 := rfl
          rw [hper] at hdivi hdivj ⊢
          omega
        · exact hused hfree
      exact .inr ⟨c, by rw [hlookup, if_pos hfree], htidy,
        ⟨fun _ => .inl rfl, rfl, rfl, rfl, rfl, rfl⟩, hnot, hnot, i, hi, hfree,
        fun j hj => (hbefore j hj).1⟩
    · exact .inl ⟨home addr + i, hfree, hfound.resolve_left hfree, by rw [hlookup, if_neg hfree]⟩

theorem lookupEntry_of_has (htidy : c.Tidy) (hhas : c.Has addr) :
    ∃ k, ¬ (c.cacheEntries k).Free ∧ (c.cacheEntries k).lpf = addr ∧
      c.lookupEntry addr 0 = (true, c.atEntry (c.cacheEntries k)) := by
  rcases lookupEntry_cases htidy addr with hhit | ⟨_, _, _, _, hnot, _⟩
  · exact hhit
  · exact absurd hhas hnot

/-! ### Insertions -/

theorem storeEntry_eq (slot count : Nat) (hfirst : c.FirstFree (home addr) i) :
    c.storeEntry addr slot count = { c with
        cacheEntries := Function.update c.cacheEntries (home addr + i)
          { lpf := addr, instructionKey := slot, instructionLen := count } } := by
  rw [storeEntry, ← home, (find_free_eq (home addr) i).mpr hfirst]

@[simp] theorem storeEntry_next (addr slot count : Nat) :
    (c.storeEntry addr slot count).nextInstructionSlot = c.nextInstructionSlot := by
  rw [storeEntry]
  split <;> rfl

theorem storeEntry_cursor (addr slot count : Nat) :
    (c.storeEntry addr slot count).currentInstructionSlot = c.currentInstructionSlot ∧
      (c.storeEntry addr slot count).currentDecodeLen = c.currentDecodeLen := by
  rw [storeEntry]
  split <;> exact ⟨rfl, rfl⟩

@[simp] theorem lookupEntry_next (addr len : Nat) :
    (c.lookupEntry addr len).2.nextInstructionSlot = c.nextInstructionSlot := by
  rw [lookupEntry]
  split
  · rfl
  · simp only
    split <;> rfl

theorem Tidy.storeEntry (htidy : c.Tidy) (slot count : Nat) (hfirst : c.FirstFree (home addr) i) :
    (c.storeEntry addr slot count).Tidy := by
  obtain ⟨hi, hfree, hbefore⟩ := hfirst
  have hper : maxCachePerLine = 32 := rfl
  have hline := home_add_div addr hi
  rw [storeEntry_eq slot count ⟨hi, hfree, hbefore⟩]
  constructor
  · intro k hused
    by_cases hk : k = home addr + i
    · subst hk
      simp only [update_self]
      exact hline.symm
    · simp only [update_of_ne hk] at hused ⊢
      exact htidy.placed k hused
  intro k j hjk hsame hused
  by_cases hk : k = home addr + i
  · subst hk
    have hjhome : home addr ≤ j := by
      rw [hper] at hline hsame
      omega
    have hj : j = home addr + (j - home addr) := by omega
    simp only [update_of_ne (Nat.ne_of_lt hjk)]
    rw [hj]
    exact hbefore _ (by omega)
  · simp only [update_of_ne hk] at hused
    by_cases hj : j = home addr + i
    · subst hj
      exact absurd hfree (htidy.packed k _ hjk hsame hused)
    · simp only [update_of_ne hj]
      exact htidy.packed k j hjk hsame hused

end InstructionCache

end Mwemu.Cache
