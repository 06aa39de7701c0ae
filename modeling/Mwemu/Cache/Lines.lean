import Mathlib.Data.Nat.Find
import Mwemu.Cache.Aarch64Fetch
import Mwemu.Cache.X86
import Mwemu.Lib.Mask

/-!
# The lines of the table

A probe stops at the first free entry of a line, so the entries in use have to come first. They do
in every state that lookups, insertions after a lookup that missed, and invalidations lead to. An
invalidation flushes the line of every page a block that meets the range can start in; an insertion
finds an entry in its line and fails only for the address that marks a free entry or for want of
slots.
-/

namespace Mwemu.Cache

open Mwemu.Lib Option Function Nat

variable {T : Type}

variable {addr : Nat}

theorem lpfOf_eq (haddr : addr < 2 ^ 64) : lpfOf addr = addr / 4096 * 4096 := by
  have hmask : 0xfffffffffffff000 = 2 ^ 64 - 2 ^ 12 := by decide
  have hpage : 4096 = 2 ^ 12 := by decide
  unfold lpfOf
  rw [hmask, hpage, and_two_pow_sub_two_pow (by decide) haddr]

namespace InstructionCache

variable {c c' : InstructionCache T}

/-! ### What an invalidation flushes -/

variable {i : Nat}

theorem flushCacheLine_free {idx : Nat} (hi : i < maxCachePerLine) :
    ((c.flushCacheLine idx).cacheEntries (idx + i)).Free := by
  rcases flushCacheLine_entry (c := c) idx (idx + i) with ⟨-, hout⟩ | ⟨hfree, -⟩
  · exact absurd ⟨Nat.le_add_right _ _, Nat.add_lt_add_left hi _⟩ hout
  · exact hfree

theorem flushPages_keeps_free (fuel page last : Nat) {k : Nat} (hfree : (c.cacheEntries k).Free) :
    ((flushPages fuel page last c).cacheEntries k).Free := by
  induction fuel generalizing page c with
  | zero => exact hfree
  | succ fuel ih =>
    have hflush : ((c.flushCacheLine (getIndexOf page 0)).cacheEntries k).Free := by
      rcases (shrinks_flushCacheLine (c := c) (getIndexOf page 0)).entries k with heq | hfree'
      · rw [heq]
        exact hfree
      · exact hfree'
    rw [flushPages]
    split
    · exact hflush
    · exact ih _ hflush

theorem flushPages_free {fuel page last n : Nat} (hn : n < fuel) (hlast : page + n * 4096 ≤ last)
    (hi : i < maxCachePerLine) :
    ((flushPages fuel page last c).cacheEntries (getIndexOf (page + n * 4096) 0 + i)).Free := by
  induction fuel generalizing page n c with
  | zero => exact absurd hn (not_lt_zero n)
  | succ fuel ih =>
    have hhere : ((c.flushCacheLine (getIndexOf page 0)).cacheEntries
        (getIndexOf page 0 + i)).Free := flushCacheLine_free hi
    rw [flushPages]
    cases n with
    | zero =>
      rw [zero_mul, add_zero]
      split
      · exact hhere
      · exact flushPages_keeps_free _ _ _ hhere
    | succ n =>
      have hnext : page + (n + 1) * 4096 = page + 0x1000 + n * 4096 := by omega
      rw [if_neg (by omega), hnext]
      exact ih (lt_of_succ_lt_succ hn) (by omega)

theorem lookupEntry_of_free (hfree : (c.cacheEntries (home addr)).Free) :
    c.lookupEntry addr 0 = (false, c) := by
  have hprobe : c.probe (home addr) addr = some 0 := by
    unfold probe
    rw [List.find?_range_eq_some]
    simp [hfree, maxCachePerLine]
  rw [lookupEntry, ← home, hprobe]
  exact if_pos hfree

theorem lookupEntry_invalidateRange {len blockLen p : Nat} (haddr : addr < 2 ^ 64)
    (hlen : 1 ≤ len) (hp : p < u64Max) (hbefore : addr < p + blockLen) (hafter : p < addr + len) :
    ((c.invalidateRange addr len blockLen).lookupEntry p 0).1 = false := by
  have hmax : u64Max = 2 ^ 64 - 1 := rfl
  have hfree : ((c.invalidateRange addr len blockLen).cacheEntries (home p)).Free := by
    unfold invalidateRange
    simp only
    have hlast : max (min (addr + len) u64Max - 1) addr < 2 ^ 64 := by omega
    have hple : p ≤ max (min (addr + len) u64Max - 1) addr := by omega
    have hpge : addr - (blockLen - 1) ≤ p := by omega
    have hfirst : addr - (blockLen - 1) < 2 ^ 64 := by omega
    rw [lpfOf_eq hlast, lpfOf_eq hfirst]
    generalize addr - (blockLen - 1) = first at *
    generalize max (min (addr + len) u64Max - 1) addr = last at *
    split
    · rfl
    -- the page of `p` is one of the pages of the loop
    rename_i hfew
    rw [shiftRight_eq_div_pow] at hfew
    have hpage : lpfOf p = first / 4096 * 4096 + (p / 4096 - first / 4096) * 4096 := by
      rw [lpfOf_eq (by omega)]
      omega
    have hlines : numLines = 2048 := rfl
    have hflushed : ((flushPages numLines (first / 4096 * 4096) (last / 4096 * 4096)
        c).cacheEntries (getIndexOf (first / 4096 * 4096 +
          (p / 4096 - first / 4096) * 4096) 0 + 0)).Free :=
      flushPages_free (by omega) (by omega) (by decide)
    rw [← hpage] at hflushed
    exact hflushed
  rw [lookupEntry_of_free hfree]

/-! ### The order of a line -/

/-- The entries of a line in use come first, and no two of them share an address. -/
structure Ordered (c : InstructionCache T) (line : Nat) : Prop where
  leading : ∃ n ≤ maxCachePerLine, ∀ i < maxCachePerLine,
    ¬ (c.cacheEntries (line * maxCachePerLine + i)).Free ↔ i < n
  distinct : ∀ i < maxCachePerLine, ∀ j < maxCachePerLine,
    ¬ (c.cacheEntries (line * maxCachePerLine + i)).Free →
    ¬ (c.cacheEntries (line * maxCachePerLine + j)).Free →
    (c.cacheEntries (line * maxCachePerLine + i)).lpf =
      (c.cacheEntries (line * maxCachePerLine + j)).lpf → i = j

/-- What every step keeps: the entries are in the line of their address, after used ones only and
without duplicates, and no more slots are handed out than there are. -/
structure Kept (c : InstructionCache T) : Prop where
  tidy : c.Tidy
  distinct : ∀ j k, ¬ (c.cacheEntries j).Free → ¬ (c.cacheEntries k).Free →
    (c.cacheEntries j).lpf = (c.cacheEntries k).lpf → j = k
  next : c.nextInstructionSlot ≤ instructionArraySize

theorem Tidy.leading (htidy : c.Tidy) (line : Nat) : ∃ n ≤ maxCachePerLine, ∀ i < maxCachePerLine,
      ¬ (c.cacheEntries (line * maxCachePerLine + i)).Free ↔ i < n := by
  have hline : ∀ i < maxCachePerLine, (line * maxCachePerLine + i) / maxCachePerLine = line := by
    intro i hi
    rw [mul_comm, mul_add_div (by decide), div_eq_of_lt hi, add_zero]
  by_cases hfree : ∃ i, i < maxCachePerLine ∧ (c.cacheEntries (line * maxCachePerLine + i)).Free
  · obtain ⟨hlt, hfirst⟩ := Nat.find_spec hfree
    refine ⟨Nat.find hfree, Nat.le_of_lt hlt, fun i hi => ⟨fun hused => ?_, fun hbefore hfree' =>
      Nat.find_min hfree hbefore ⟨hi, hfree'⟩⟩⟩
    by_contra hafter
    rcases Nat.lt_or_eq_of_le (Nat.le_of_not_lt hafter) with hbetween | heq
    · refine htidy.packed (line * maxCachePerLine + i) (line * maxCachePerLine + Nat.find hfree)
        (by omega) ?_ hused hfirst
      rw [hline _ hlt, hline i hi]
    · rw [heq] at hfirst
      exact hused hfirst
  · exact ⟨maxCachePerLine, le_refl _, fun i hi =>
      ⟨fun _ => hi, fun _ hfree' => hfree ⟨i, hi, hfree'⟩⟩⟩

theorem Kept.ordered (hkept : c.Kept) (line : Nat) : c.Ordered line :=
  ⟨hkept.tidy.leading line, fun _ _ _ _ hi hj heq =>
    add_left_cancel (hkept.distinct _ _ hi hj heq)⟩

theorem kept_of_free (hfree : ∀ k, (c.cacheEntries k).Free)
    (hnext : c.nextInstructionSlot ≤ instructionArraySize) : c.Kept :=
  ⟨⟨fun k hused => absurd (hfree k) hused, fun k _ _ _ hused => absurd (hfree k) hused⟩,
    fun j _ hused => absurd (hfree j) hused, hnext⟩

theorem Kept.shrinks (hkept : c.Kept) (htidy : c'.Tidy) (hshrinks : Shrinks c c') : c'.Kept := by
  have hold : ∀ k, ¬ (c'.cacheEntries k).Free → c'.cacheEntries k = c.cacheEntries k :=
    fun k hused => (hshrinks.entries k).resolve_right hused
  refine ⟨htidy, fun j k hj hk heq => ?_, hshrinks.next ▸ hkept.next⟩
  rw [hold j hj, hold k hk] at heq
  exact hkept.distinct j k (hold j hj ▸ hj) (hold k hk ▸ hk) heq

theorem Kept.congr (hkept : c.Kept) (hentries : c'.cacheEntries = c.cacheEntries)
    (hnext : c'.nextInstructionSlot ≤ instructionArraySize) : c'.Kept := by
  refine ⟨⟨?_, ?_⟩, ?_, hnext⟩
  · rw [hentries]
    exact hkept.tidy.placed
  · rw [hentries]
    exact hkept.tidy.packed
  · rw [hentries]
    exact hkept.distinct

theorem Kept.lookupEntry (hkept : c.Kept) (addr len : Nat) : (c.lookupEntry addr len).2.Kept := by
  have hflush := hkept.tidy.flushCacheLine (getIndexOf_mod (lpfOf addr) len)
  unfold InstructionCache.lookupEntry
  simp only
  split
  · exact hkept.shrinks hflush (shrinks_flushCacheLine _)
  · split_ifs
    · exact hkept
    · exact hkept.congr rfl hkept.next

theorem Kept.storeEntry (hkept : c.Kept) (slot count : Nat) (hnot : ¬ c.Has addr)
    (hfirst : c.FirstFree (home addr) i) : (c.storeEntry addr slot count).Kept := by
  have htidy := hkept.tidy.storeEntry slot count hfirst
  rw [storeEntry_eq slot count hfirst] at htidy ⊢
  refine ⟨htidy, fun j k hj hk heq => ?_, hkept.next⟩
  by_cases hjnew : j = home addr + i
  · by_cases hknew : k = home addr + i
    · rw [hjnew, hknew]
    · simp only [hjnew, update_self, update_of_ne hknew] at hk heq
      exact absurd ⟨k, hk, heq.symm⟩ hnot
  by_cases hknew : k = home addr + i
  · simp only [hknew, update_self, update_of_ne hjnew] at hj heq
    exact absurd ⟨j, hj, heq⟩ hnot
  · simp only [update_of_ne hjnew, update_of_ne hknew] at hj hk heq
    exact hkept.distinct j k hj hk heq

theorem lookupEntry_fst_iff (htidy : c.Tidy) :
    (c.lookupEntry addr 0).1 = true ↔ c.Has addr := by
  constructor
  · intro hhit
    rcases lookupEntry_cases htidy addr with ⟨k, hused, hlpf, -⟩ | ⟨_, hmiss, -⟩
    · exact ⟨k, hused, hlpf⟩
    · rw [hmiss] at hhit
      cases hhit
  · intro hhas
    obtain ⟨k, -, -, heq⟩ := lookupEntry_of_has htidy hhas
    rw [heq]

theorem lookupEntry_storeEntry (htidy : c.Tidy) (slot count : Nat)
    (hfirst : c.FirstFree (home addr) i) :
    ((c.storeEntry addr slot count).lookupEntry addr 0).1 = true ↔ addr ≠ u64Max := by
  rw [lookupEntry_fst_iff (htidy.storeEntry slot count hfirst)]
  constructor
  · rintro ⟨k, hused, hlpf⟩ rfl
    exact hused hlpf
  · intro haddr
    rw [storeEntry_eq slot count hfirst]
    refine ⟨home addr + i, ?_, ?_⟩ <;> simp only [update_self]
    exact haddr

/-! ### Insertions -/

/-- The table an insertion puts its entry in: flushed if the slots may run out. -/
def recycled (c : InstructionCache T) (bytes : List UInt8) : InstructionCache T :=
  if instructionArraySize < bytes.length + c.nextInstructionSlot then c.flushCache else c

def inserted (c : InstructionCache T) (bytes : List UInt8) (block : List T) (addr : Nat) :
    InstructionCache T :=
  storeEntry
    { (c.recycled bytes).written c.nextInstructionSlot block with
      nextInstructionSlot := (c.recycled bytes).nextInstructionSlot + block.length }
    addr c.nextInstructionSlot block.length

theorem closingX86_eq (dec : Decoder T) (bytes : List UInt8) (addition addr : Nat)
    (hroom : c.nextInstructionSlot + (dec.decodeBlock bytes addr addition).length ≤
      instructionArraySize) : c.closingX86 dec bytes addition addr =
      some ((c.inserted bytes (dec.decodeBlock bytes addr addition) addr).lookupEntry addr 0) := by
  unfold Decoder.decodeBlock at hroom
  unfold closingX86
  dsimp only
  rw [fillX86_eq _ _ _ _ _ (by omega)]
  simp only [zero_add, add_zero]
  rfl

theorem closingX86_eq_none (hnext : c.nextInstructionSlot ≤ instructionArraySize)
    (dec : Decoder T) (bytes : List UInt8) (addition addr : Nat) (hroom : instructionArraySize <
      c.nextInstructionSlot + (dec.decodeBlock bytes addr addition).length) :
    c.closingX86 dec bytes addition addr = none := by
  unfold Decoder.decodeBlock at hroom
  unfold closingX86
  dsimp only
  rw [fillX86_eq_none _ _ _ _ _ (by omega) (by omega)]
  rfl

theorem Kept.recycled (hkept : c.Kept) (bytes : List UInt8) (hnot : ¬ c.Has addr)
    (hfirst : c.FirstFree (home addr) i) : (c.recycled bytes).Kept ∧ ¬ (c.recycled bytes).Has addr ∧
      (c.recycled bytes).nextInstructionSlot ≤ c.nextInstructionSlot ∧
      ∃ i, (c.recycled bytes).FirstFree (home addr) i := by
  unfold InstructionCache.recycled
  split_ifs with hfull
  · refine ⟨kept_of_free (fun _ => rfl) (zero_le _), ?_, zero_le _, 0, by decide, rfl, ?_⟩
    · rintro ⟨k, hused, -⟩
      exact hused rfl
    · exact fun j hj => absurd hj (not_lt_zero j)
  · exact ⟨hkept, hnot, le_refl _, i, hfirst⟩

/-- An insertion with slots for its block keeps the table, and its closing lookup finds the block
unless the address is the one that marks a free entry. -/
theorem Kept.inserted (hkept : c.Kept) (bytes : List UInt8) {block : List T} (hnot : ¬ c.Has addr)
    (hfirst : c.FirstFree (home addr) i)
    (hroom : c.nextInstructionSlot + block.length ≤ instructionArraySize) :
    (c.inserted bytes block addr).Kept ∧
      (((c.inserted bytes block addr).lookupEntry addr 0).1 = true ↔ addr ≠ u64Max) := by
  obtain ⟨hkept', hnot', hle, i', hfirst'⟩ := hkept.recycled bytes hnot hfirst
  have hextended : Kept
      { (c.recycled bytes).written c.nextInstructionSlot block with
        nextInstructionSlot := (c.recycled bytes).nextInstructionSlot + block.length } :=
    hkept'.congr rfl (by simp only; omega)
  exact ⟨hextended.storeEntry _ _ hnot' hfirst', lookupEntry_storeEntry hextended.tidy _ _ hfirst'⟩

/-- The closing lookup of an insertion succeeds exactly if the block has slots and the address is
not the one that marks a free entry. -/
theorem Kept.closingX86 (hkept : c.Kept) (dec : Decoder T) (bytes : List UInt8) (addition : Nat)
    (hnot : ¬ c.Has addr) (hfirst : c.FirstFree (home addr) i) :
    (∃ c', c.closingX86 dec bytes addition addr = some (true, c')) ↔
      addr ≠ u64Max ∧ c.nextInstructionSlot + (dec.decodeBlock bytes addr addition).length ≤
        instructionArraySize := by
  constructor
  · rintro ⟨c', hclosing⟩
    have hroom : c.nextInstructionSlot + (dec.decodeBlock bytes addr addition).length ≤
        instructionArraySize := by
      by_contra hfull
      rw [closingX86_eq_none hkept.next dec bytes addition addr (by omega)] at hclosing
      cases hclosing
    obtain ⟨-, hfound⟩ := hkept.inserted bytes hnot hfirst hroom
    rw [closingX86_eq dec bytes addition addr hroom] at hclosing
    refine ⟨hfound.mp ?_, hroom⟩
    rw [Option.some.inj hclosing]
  · rintro ⟨haddr, hroom⟩
    obtain ⟨-, hfound⟩ := hkept.inserted bytes hnot hfirst hroom
    rw [closingX86_eq dec bytes addition addr hroom, ← hfound.mpr haddr]
    exact ⟨_, rfl⟩

theorem Kept.insertX86 (hkept : c.Kept) (dec : Decoder T) (bytes : List UInt8) (addition : Nat)
    (hnot : ¬ c.Has addr) (hfirst : c.FirstFree (home addr) i)
    (hinsert : c.insertX86FromDecoder dec bytes addition addr = some c') : c'.Kept := by
  rw [insertX86FromDecoder] at hinsert
  by_cases hroom : c.nextInstructionSlot + (dec.decodeBlock bytes addr addition).length ≤
      instructionArraySize
  · rw [closingX86_eq dec bytes addition addr hroom] at hinsert
    cases hinsert
    exact (hkept.inserted bytes hnot hfirst hroom).1.lookupEntry addr 0
  · rw [closingX86_eq_none hkept.next dec bytes addition addr (by omega)] at hinsert
    cases hinsert

/-- A word decoder's insertion keeps the table too, and the address is found afterwards exactly if
something was decoded, the slots did not run out and it is not the one that marks a free entry. -/
theorem Kept.insertAarch64 (hkept : c.Kept) (dec : WordDecoder T) (bytes : List UInt8)
    (hnot : ¬ c.Has addr) (hfirst : c.FirstFree (home addr) i) :
    (c.insertAarch64FromBlock dec bytes addr).Kept ∧
      (((c.insertAarch64FromBlock dec bytes addr).lookupEntry addr 0).1 = true ↔
        addr ≠ u64Max ∧ dec.block bytes ≠ [] ∧
          c.nextInstructionSlot + dec.passes bytes ≤ instructionArraySize) := by
  rcases insertAarch64_cases hkept.next dec bytes addr with
    ⟨hfull, part, heq⟩ | ⟨hroom, hnone, heq⟩ | ⟨hroom, hsome, heq⟩
  · rw [heq]
    refine ⟨kept_of_free (fun _ => rfl) (zero_le _), ?_⟩
    have hfree : ∀ k, ((c.written c.nextInstructionSlot part).flushCache.cacheEntries k).Free :=
      fun _ => rfl
    rw [lookupEntry_of_free (hfree _)]
    simp only [Bool.false_eq_true, false_iff]
    omega
  · rw [heq]
    refine ⟨hkept, ?_⟩
    rw [lookupEntry_fst_iff hkept.tidy]
    simp [hnone, hnot]
  · have hlen := dec.length_block_le bytes
    have hextended : (c.extend (dec.block bytes)).Kept :=
      hkept.congr rfl (by simp only [InstructionCache.extend]; omega)
    have hstored := hextended.storeEntry c.nextInstructionSlot (dec.block bytes).length hnot hfirst
    have hfound := lookupEntry_storeEntry hextended.tidy c.nextInstructionSlot
      (dec.block bytes).length hfirst
    rw [heq]
    refine ⟨hstored.lookupEntry addr 0, ?_⟩
    simp only [hsome, hroom, ne_eq, not_false_eq_true, and_true]
    rw [← ne_eq, ← hfound, lookupEntry_fst_iff (hstored.lookupEntry addr 0).tidy]
    rcases lookupEntry_cases hstored.tidy addr with ⟨k, hused, hlpf, hhit⟩ | ⟨c', hmiss, -, -, -,
      hnot', -⟩
    · -- a hit moves the cursor and nothing else
      rw [hhit]
      exact iff_of_true ⟨k, hused, hlpf⟩ rfl
    · rw [hmiss]
      exact iff_of_false hnot' Bool.false_ne_true

end InstructionCache

/-! ### Runs -/

/-- What is done to a cache; an insertion follows a lookup that misses. -/
inductive TableOp where
  | lookup (addr len : Nat)
  | fetchX86 (addr : Nat) (bytes : List UInt8) (addition : Nat)
  | fetchAarch64 (addr : Nat) (bytes : List UInt8)
  | invalidateRange (addr len blockLen : Nat)
  | invalidateAll
  | decodeOut

namespace TableOp

open InstructionCache

def step (x86 : Decoder T) (aarch64 : WordDecoder T) (c : InstructionCache T) :
    TableOp → Option (InstructionCache T)
  | .lookup addr len => some (c.lookupEntry addr len).2
  | .fetchX86 addr bytes addition =>
    match c.lookupEntry addr 0 with
    | (true, c) => some c
    | (false, c) => c.insertX86FromDecoder x86 bytes addition addr
  | .fetchAarch64 addr bytes =>
    match c.lookupEntry addr 0 with
    | (true, c) => some c
    | (false, c) => some (c.insertAarch64FromBlock aarch64 bytes addr)
  | .invalidateRange addr len blockLen => some (c.invalidateRange addr len blockLen)
  | .invalidateAll => some c.invalidateAll
  | .decodeOut => if c.canDecode then c.decodeOut.map Prod.snd else some c

variable {x86 : Decoder T} {aarch64 : WordDecoder T} {c c' : InstructionCache T}

theorem kept_step {op : TableOp} (hkept : c.Kept) (hstep : step x86 aarch64 c op = some c') :
    c'.Kept := by
  cases op with
  | lookup addr len =>
    cases hstep
    exact hkept.lookupEntry addr len
  | fetchX86 addr bytes addition =>
    have hlooked := hkept.lookupEntry addr 0
    rcases lookupEntry_cases hkept.tidy addr with
      ⟨k, -, -, heq⟩ | ⟨looked, heq, -, -, -, hnot, i, hfirst⟩ <;>
    rw [step, heq] at hstep <;> rw [heq] at hlooked
    · cases hstep
      exact hlooked
    · exact hlooked.insertX86 x86 bytes addition hnot hfirst hstep
  | fetchAarch64 addr bytes =>
    have hlooked := hkept.lookupEntry addr 0
    rcases lookupEntry_cases hkept.tidy addr with
      ⟨k, -, -, heq⟩ | ⟨looked, heq, -, -, -, hnot, i, hfirst⟩ <;>
    rw [step, heq] at hstep <;> rw [heq] at hlooked
    · cases hstep
      exact hlooked
    · cases hstep
      exact (hlooked.insertAarch64 aarch64 bytes hnot hfirst).1
  | invalidateRange addr len blockLen =>
    cases hstep
    obtain ⟨htidy, hshrinks⟩ := invalidateRange_spec addr len blockLen hkept.tidy
    exact hkept.shrinks htidy hshrinks
  | invalidateAll =>
    cases hstep
    exact hkept.shrinks .invalidateAll shrinks_invalidateAll
  | decodeOut =>
    rw [step] at hstep
    split_ifs at hstep
    · obtain ⟨out, hout, rfl⟩ := map_eq_some_iff.mp hstep
      unfold InstructionCache.decodeOut at hout
      simp only at hout
      split_ifs at hout
      cases hout
      exact hkept.congr rfl hkept.next
    · cases hstep
      exact hkept

theorem kept_run {default : T} {ops : List TableOp}
    (hrun : run (step x86 aarch64) (new default) ops = some c) : c.Kept := by
  have hnew : (new default : InstructionCache T).Kept := kept_of_free (fun _ => rfl) (zero_le _)
  exact run_preserves InstructionCache.Kept (fun _ _ _ hkept _ hstep => kept_step hkept hstep) hnew
    (along_true _ ops) hrun

/-- In every state of every run: an invalidation hides every block that can reach into its range,
the lines stay ordered, and a lookup that misses leaves a free entry in the line of its address. The
closing lookup of the insertion that follows succeeds exactly if the block has slots and its address
is not the one that marks a free entry. -/
theorem lines_along_run (x86 : Decoder T) (aarch64 : WordDecoder T) (default : T)
    (ops : List TableOp) (c : InstructionCache T)
    (hrun : run (step x86 aarch64) (new default) ops = some c) :
    (∀ addr len p, addr < 2 ^ 64 → 1 ≤ len → p < u64Max → addr < p + blockLen → p < addr + len →
      ((c.invalidateRange addr len blockLen).lookupEntry p 0).1 = false) ∧
    (∀ line, c.Ordered line ∧ ∀ addr len, (c.invalidateRange addr len blockLen).Ordered line) ∧
    ∀ addr looked, c.lookupEntry addr 0 = (false, looked) → (∃ i, looked.FirstFree (home addr) i) ∧
      (∀ bytes addition, (∃ c', looked.closingX86 x86 bytes addition addr = some (true, c')) ↔
        addr ≠ u64Max ∧ c.nextInstructionSlot + (x86.decodeBlock bytes addr addition).length ≤
            instructionArraySize) ∧
      ∀ bytes, ((looked.insertAarch64FromBlock aarch64 bytes addr).lookupEntry addr 0).1 = true ↔
        addr ≠ u64Max ∧ aarch64.block bytes ≠ [] ∧
          c.nextInstructionSlot + aarch64.passes bytes ≤ instructionArraySize := by
  have hkept := kept_run hrun
  refine ⟨fun addr len p haddr hlen hp hbefore hafter =>
    lookupEntry_invalidateRange haddr hlen hp hbefore hafter, fun line =>
    ⟨hkept.ordered line, fun addr len => ?_⟩, fun addr looked hmiss => ?_⟩
  · obtain ⟨htidy, hshrinks⟩ := invalidateRange_spec addr len blockLen hkept.tidy
    exact (hkept.shrinks htidy hshrinks).ordered line
  have hlooked := hkept.lookupEntry addr 0
  rcases lookupEntry_cases hkept.tidy addr with ⟨_, -, -, heq⟩ | ⟨c', heq, -, hshrinks, -, hnot,
    i, hfirst⟩
  · rw [heq] at hmiss
    cases hmiss
  rw [heq] at hmiss hlooked
  cases hmiss
  rw [← hshrinks.next]
  exact ⟨⟨i, hfirst⟩, fun bytes addition => hlooked.closingX86 x86 bytes addition hnot hfirst,
    fun bytes => (hlooked.insertAarch64 aarch64 bytes hnot hfirst).2⟩

def noWords : WordDecoder UInt8 where
  decode _ := none
  endsBlock _ := false

theorem lines_along_run_nop : ∃ c, run (step Traced.byteDecoder noWords) (new 0)
        [.fetchX86 0x401000 [0x90, 0x90, 0x90] 1] = some c ∧
      ((c.invalidateRange 0x401002 1 blockLen).lookupEntry 0x401000 0).1 = false := by
  have hsome : (run (step Traced.byteDecoder noWords) (new 0)
      [.fetchX86 0x401000 [0x90, 0x90, 0x90] 1]).isSome = true := by decide +kernel
  obtain ⟨c, hrun⟩ := isSome_iff_exists.mp hsome
  obtain ⟨hhidden, -⟩ := lines_along_run Traced.byteDecoder noWords 0 _ c hrun
  exact ⟨c, hrun, hhidden 0x401002 1 0x401000 (by decide) (by decide) (by decide) (by decide)
    (by decide)⟩

/-! ### An insertion without slots -/

def ofOp : Op → TableOp
  | .lookup addr => .lookup addr 0
  | .fetch addr bytes addition => .fetchX86 addr bytes addition
  | .invalidateRange addr len blockLen => .invalidateRange addr len blockLen
  | .invalidateAll => .invalidateAll
  | .decodeOut => .decodeOut

theorem step_ofOp {s s' : Traced T} {op : Op} (hstep : s.step x86 op = some s') :
    step x86 aarch64 s.cache (ofOp op) = some s'.cache := by
  cases op with
  | lookup addr =>
    cases hstep
    rfl
  | fetch addr bytes addition =>
    rw [Traced.step] at hstep
    rw [ofOp, step]
    rcases heq : s.cache.lookupEntry addr 0 with ⟨_ | _, looked⟩
    · rw [heq] at hstep
      obtain ⟨c, hinsert, rfl⟩ := map_eq_some_iff.mp hstep
      exact hinsert
    · rw [heq] at hstep
      cases hstep
      rfl
  | invalidateRange addr len blockLen =>
    cases hstep
    rfl
  | invalidateAll =>
    cases hstep
    rfl
  | decodeOut =>
    rw [Traced.step] at hstep
    rw [ofOp, step]
    split_ifs at hstep with hmore
    · obtain ⟨out, hout, rfl⟩ := map_eq_some_iff.mp hstep
      rw [if_pos hmore, hout]
      rfl
    · cases hstep
      exact if_neg hmore

theorem run_ofOp {s s' : Traced T} {ops : List Op} (hrun : run (Traced.step x86) s ops = some s') :
    run (step x86 aarch64) s.cache (ops.map ofOp) = some s'.cache := by
  induction ops generalizing s with
  | nil =>
    cases hrun
    rfl
  | cons op ops ih =>
    obtain ⟨t, hstep, hrun⟩ := bind_eq_some_iff.mp hrun
    exact bind_eq_some_iff.mpr ⟨t.cache, step_ofOp hstep, ih hrun⟩

/-- After 696 rounds the lookup misses, but the insertion that follows does not get to its closing
lookup: it writes past the end of the instructions. -/
theorem insertion_without_slots : ∃ c, run (step Traced.byteDecoder noWords) (new 0)
        ((List.replicate 696 Traced.nopRound).flatten.map ofOp) = some c ∧
      c.lookupEntry 0 0 = (false, c) ∧
      c.closingX86 Traced.byteDecoder Traced.nopBlock 16 0 = none := by
  obtain ⟨s, hrun, hs⟩ := Traced.Cleared.nopRounds 696 (le_refl _)
  have hnext := hs.next
  have hsize : instructionArraySize = 524288 := rfl
  generalize (List.replicate 696 Traced.nopRound).flatten = ops at hrun ⊢
  refine ⟨s.cache, run_ofOp hrun, lookupEntry_of_free (hs.free _), ?_⟩
  apply closingX86_eq_none
  · omega
  · rw [Traced.length_decodeBlock_nopBlock]
    omega

end TableOp

end Mwemu.Cache
