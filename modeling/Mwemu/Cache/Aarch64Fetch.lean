import Mwemu.Cache.Aarch64
import Mwemu.Maps.Runs

/-!
# Fetching AArch64 code

The run loop fetches through `ensure_instruction_cache_populated_aarch64`: it drops every cached
lookup if executable memory was written, looks the address up and, on a miss, decodes a block of the
region. The state of the system is the memory with the cache and the loop's block buffer. A fetch
that inserts nothing leaves the cursor of the block before it, so what comes out next is the
instruction at the program counter exactly under `Fresh`.
-/

namespace Mwemu.Cache

open Mwemu.Lib List Option

variable {T : Type}

def blockLen : Nat := 0x300

def wordAt (view : Nat → Option UInt8) (x : Nat) : Option (List UInt8) := do
  let b₀ ← view x
  let b₁ ← view (x + 1)
  let b₂ ← view (x + 2)
  let b₃ ← view (x + 3)
  some [b₀, b₁, b₂, b₃]

def WordDecoder.decodeAt (dec : WordDecoder T) (view : Nat → Option UInt8) (x : Nat) : Option T :=
  (wordAt view x).bind dec.decode

structure Fetcher (T : Type) where
  maps : Maps
  cache : InstructionCache T
  block : List UInt8

namespace Fetcher

def new (default : T) : Fetcher T :=
  { maps := Maps.default
    cache := InstructionCache.new default
    block := List.replicate blockLen 0 }

def drained (s : Fetcher T) : Fetcher T :=
  if s.maps.hasCodeWrites then
    { s with maps := s.maps.drainCodeWrites.2, cache := s.cache.invalidateAll }
  else s

def ensureInstructionCachePopulatedAarch64 (dec : WordDecoder T) (s : Fetcher T) (pc : Nat) :
    Except String Unit × Fetcher T :=
  let s := s.drained
  let (hit, cache) := s.cache.lookupEntry pc 0
  if hit then (.ok (), { s with cache := cache })
  else if s.block = [] then
    (.error "cannot read code block, weird address.", { s with cache := cache })
  else
    match s.maps.getMemByAddr pc with
    | (none, maps) =>
      (.error "cannot read program counter", { s with maps := maps, cache := cache })
    | (some (_, code), maps) =>
      let block := code.readBytes pc blockLen
      (.ok (), { maps, cache := cache.insertAarch64FromBlock dec block pc, block })

inductive Op where
  /-- what the program and the rest of the emulator do to the memory -/
  | memory (op : Maps.CodeOp)
  | fetch (pc : Nat)
  /-- `decode_out`, by a loop that has checked `can_decode` -/
  | decodeOut
  /-- a new run of the loop, with a block buffer of its own -/
  | restart

def step (dec : WordDecoder T) (s : Fetcher T) : Op → Option (Fetcher T)
  | .memory op => (op.step s.maps).map fun maps => { s with maps }
  | .fetch pc => some (s.ensureInstructionCachePopulatedAarch64 dec pc).2
  | .decodeOut =>
    if s.cache.canDecode then s.cache.decodeOut.map fun out => { s with cache := out.2 }
    else some s
  | .restart => some { s with block := List.replicate blockLen 0 }

/-- The memory is changed with care for its executable regions, and code is fetched only there. -/
def Careful (s : Fetcher T) : Op → Prop
  | .memory op => op.Careful s.maps
  | .fetch pc => ∀ key r, s.maps.searchMaps pc = some (key, r) → r.canExecute = true
  | _ => True

instance (s : Fetcher T) : (op : Op) → Decidable (s.Careful op)
  | .memory op => inferInstanceAs (Decidable (op.Careful s.maps))
  | .fetch pc => decidable_of_iff (∀ found ∈ s.maps.searchMaps pc, found.2.canExecute = true)
      ⟨fun hall key r hfound => hall (key, r) hfound, fun hall _ hfound => hall _ _ hfound⟩
  | .decodeOut | .restart => .isTrue trivial

def pending (s : Fetcher T) : T :=
  s.cache.instructions (s.cache.currentInstructionSlot + s.cache.currentDecodeIdx)

/-- A fetch moves the cursor to `pc`, or the cursor has nothing to give or already the instruction
at `pc`. -/
def Fresh (dec : WordDecoder T) (s : Fetcher T) (pc : Nat) : Prop :=
  s.cache.canDecode = false ∨
  dec.decodeAt s.maps.byteAt pc = some s.pending ∨
  (s.maps.hasCodeWrites = false ∧ (s.cache.lookupEntry pc 0).1 = true) ∨
  ∃ key code, s.maps.searchMaps pc = some (key, code) ∧
    dec.block (code.readBytes pc blockLen) ≠ [] ∧
    s.cache.nextInstructionSlot + dec.passes (code.readBytes pc blockLen) ≤ instructionArraySize

end Fetcher

/-! ### Words in memory -/

variable {view : Nat → Option UInt8} {x : Nat}

theorem wordAt_eq {w : List UInt8} (hlen : w.length = 4)
    (hview : ∀ j, j < 4 → view (x + j) = w[j]?) : wordAt view x = some w := by
  obtain ⟨b₀, b₁, b₂, b₃, rfl⟩ : ∃ b₀ b₁ b₂ b₃, w = [b₀, b₁, b₂, b₃] := by
    match w, hlen with
    | [b₀, b₁, b₂, b₃], _ => exact ⟨b₀, b₁, b₂, b₃, rfl⟩
  have h₀ := hview 0 (by decide)
  have h₁ := hview 1 (by decide)
  have h₂ := hview 2 (by decide)
  have h₃ := hview 3 (by decide)
  simp only [Nat.add_zero, List.getElem?_cons_zero, List.getElem?_cons_succ] at h₀ h₁ h₂ h₃
  simp [wordAt, h₀, h₁, h₂, h₃]

theorem wordAt_mono {view' : Nat → Option UInt8}
    (hmono : ∀ x b, view x = some b → view' x = some b) {w : List UInt8}
    (hw : wordAt view x = some w) : wordAt view' x = some w := by
  simp only [wordAt, bind_eq_bind, bind_eq_some_iff, Option.some.injEq] at hw ⊢
  obtain ⟨b₀, h₀, b₁, h₁, b₂, h₂, b₃, h₃, rfl⟩ := hw
  exact ⟨b₀, hmono _ _ h₀, b₁, hmono _ _ h₁, b₂, hmono _ _ h₂, b₃, hmono _ _ h₃, rfl⟩

/-- The view spells the instructions of a block from an address on. -/
def WordDecoder.Spells (dec : WordDecoder T) (view : Nat → Option UInt8) (x : Nat)
    (block : List T) : Prop :=
  ∀ i (hi : i < block.length), dec.decodeAt view (x + 4 * i) = some block[i]

theorem WordDecoder.spells_block (dec : WordDecoder T) {bytes : List UInt8}
    (hview : ∀ j, j < bytes.length → view (x + j) = bytes[j]?) :
    dec.Spells view x (dec.block bytes) := by
  intro i hi
  obtain ⟨hlen, hword⟩ := dec.decode_block bytes i hi
  have hw : wordAt view (x + 4 * i) = some ((bytes.drop (4 * i)).take 4) := by
    refine wordAt_eq ?_ fun j hj => ?_
    · rw [length_take, length_drop]
      omega
    · rw [Nat.add_assoc, hview _ (by omega), List.getElem?_take_of_lt hj, List.getElem?_drop]
  rw [WordDecoder.decodeAt, hw]
  exact hword

variable {pc : Nat}

theorem getElem?_readBytes {r : Mem64} {len j : Nat} (hj : j < (r.readBytes pc len).length) :
    (r.readBytes pc len)[j]? = r.mem[pc + j - r.baseAddr]? ∧ r.baseAddr ≤ pc ∧
      pc + j < r.baseAddr + r.mem.length := by
  rw [Mem64.readBytes] at hj ⊢
  split at hj
  · split at hj
    · exact absurd hj (Nat.not_lt_zero j)
    split at hj
    · exact absurd hj (Nat.not_lt_zero j)
    · next hread hend hbase =>
      rw [length_take, length_drop] at hj
      rw [if_pos hread, if_neg hend, if_neg hbase, List.getElem?_take_of_lt (by omega),
        List.getElem?_drop]
      refine ⟨?_, by omega, by omega⟩
      congr 1
      omega
  · exact absurd hj (Nat.not_lt_zero j)

variable {m : Maps} {key : Nat}

theorem byteAt_readBytes (hwf : m.Wf) {len j : Nat} {r : Mem64}
    (hget : m.memSlab.get key = some r) (hj : j < (r.readBytes pc len).length) :
    m.byteAt (pc + j) = (r.readBytes pc len)[j]? ∧
      (r.canExecute = true → m.codeAt (pc + j) = (r.readBytes pc len)[j]?) := by
  obtain ⟨heq, hlow, hhigh⟩ := getElem?_readBytes hj
  have hsized := hwf.sized key r hget
  have hinside : r.inside (pc + j) = true := by
    rw [Maps.inside_eq_true, hsized, Mem64.size]
    omega
  have hfound := hwf.searchMaps_eq_some.mpr ⟨hget, hinside⟩
  refine ⟨?_, fun hexec => ?_⟩
  · rw [Maps.byteAt, hfound, bind_some, Mem64.byteAt, if_pos hinside, heq]
  · rw [Maps.codeAt, hfound, bind_some, Mem64.codeAt, if_pos hexec, Mem64.byteAt,
      if_pos hinside, heq]

/-! ### The invariant -/

namespace Fetcher

open InstructionCache

variable {dec : WordDecoder T} {s : Fetcher T}

/-- Unless a write is waiting in the log, every stored block is what the memory spells at its
address; the cursor stays in slots handed out, or is left over from before a flush. -/
structure Sound (dec : WordDecoder T) (s : Fetcher T) : Prop where
  wf : s.maps.Wf
  range : s.cache.currentInstructionSlot + s.cache.currentDecodeLen ≤ instructionArraySize
  cursor : s.cache.currentInstructionSlot + s.cache.currentDecodeLen ≤
    s.cache.nextInstructionSlot ∨ s.cache.nextInstructionSlot = 0
  blocks : ∃ decoded, s.cache.Stored decoded ∧ (s.maps.codeWrites = [] →
    ∀ k, ¬ (s.cache.cacheEntries k).Free →
      dec.Spells s.maps.codeAt (s.cache.cacheEntries k).lpf (decoded (s.cache.cacheEntries k).lpf))

theorem sound_new (default : T) : Sound dec (new default) :=
  ⟨Maps.wf_default, Nat.zero_le _, .inr rfl, fun _ => [],
    stored_of_free (fun _ => rfl) (Nat.zero_le _), fun _ _ hused => absurd rfl hused⟩

theorem Sound.memory (hs : Sound dec s) (hwf : m.Wf) (hlogged : s.maps.Logged m) :
    Sound dec { s with maps := m } := by
  obtain ⟨decoded, hstored, hspells⟩ := hs.blocks
  refine ⟨hwf, hs.range, hs.cursor, decoded, hstored, fun hempty k hused => ?_⟩
  have hview : m.codeAt = s.maps.codeAt := funext fun x => hlogged.codeAt_eq hempty x
  simp only [hview]
  exact hspells (hlogged.grows.nil hempty) k hused

variable {c : InstructionCache T}

theorem Sound.shrinks (hs : Sound dec s) (htidy : c.Tidy) (hshrinks : Shrinks s.cache c) :
    Sound dec { s with cache := c } := by
  obtain ⟨decoded, hstored, hspells⟩ := hs.blocks
  refine ⟨hs.wf, ?_, ?_, decoded, hstored.shrinks htidy hshrinks, fun hempty k hused => ?_⟩
  · simp only [hshrinks.slot, hshrinks.len]
    exact hs.range
  · simp only [hshrinks.slot, hshrinks.len, hshrinks.next]
    exact hs.cursor
  · have hentry := (hshrinks.entries k).resolve_right hused
    simp only [hentry] at hused ⊢
    exact hspells hempty k hused

theorem Sound.drained (hs : Sound dec s) : Sound dec s.drained ∧ s.drained.maps.codeWrites = [] := by
  rw [Fetcher.drained]
  split
  · refine ⟨⟨hs.wf.congr rfl rfl rfl, hs.range, hs.cursor, fun _ => [], ?_, ?_⟩, rfl⟩
    · obtain ⟨decoded, hstored, -⟩ := hs.blocks
      exact stored_of_free (fun _ => rfl) hstored.next
    · exact fun _ _ hused => absurd rfl hused
  · next hwrites =>
    refine ⟨hs, ?_⟩
    rw [Maps.hasCodeWrites] at hwrites
    simpa using hwrites

theorem Sound.atEntry (hs : Sound dec s) {k : Nat} (hused : ¬ (s.cache.cacheEntries k).Free) :
    Sound dec { s with cache := s.cache.atEntry (s.cache.cacheEntries k) } := by
  obtain ⟨decoded, hstored, hspells⟩ := hs.blocks
  have hbelow := (hstored.blocks k hused).below
  have hlen := hstored.length k hused
  have hnext := hstored.next
  refine ⟨hs.wf, ?_, .inl ?_, decoded, hstored.moved _ _ _, hspells⟩
  · simp only [InstructionCache.atEntry]
    omega
  · simp only [InstructionCache.atEntry]
    omega

theorem Sound.decodeOut_atEntry (hs : Sound dec s) (hempty : s.maps.codeWrites = []) {k : Nat}
    (hused : ¬ (s.cache.cacheEntries k).Free)
    (hmore : (s.cache.atEntry (s.cache.cacheEntries k)).canDecode = true) :
    ∃ ins c, (s.cache.atEntry (s.cache.cacheEntries k)).decodeOut = some (ins, c) ∧
      dec.decodeAt s.maps.byteAt (s.cache.cacheEntries k).lpf = some ins := by
  obtain ⟨decoded, hstored, hspells⟩ := hs.blocks
  have hblock := hstored.blocks k hused
  have hbelow := hblock.below
  have hnext := hstored.next
  have hlen := hstored.length k hused
  rw [canDecode, decide_eq_true_eq] at hmore
  simp only [InstructionCache.atEntry] at hmore
  have hfirst : 0 < (decoded (s.cache.cacheEntries k).lpf).length := by omega
  refine ⟨_, _, if_pos ?_, ?_⟩
  · simp only [InstructionCache.atEntry]
    omega
  have hspell := hspells hempty k hused 0 hfirst
  have hholds := hblock.holds 0 hfirst
  simp only [InstructionCache.atEntry]
  rw [hholds]
  rw [WordDecoder.decodeAt, bind_eq_some_iff] at hspell ⊢
  obtain ⟨w, hw, hdecode⟩ := hspell
  exact ⟨w, wordAt_mono (fun _ _ => Maps.byteAt_of_codeAt) hw, hdecode⟩

/-! ### A fetch -/

/-- The lookup of a fetch hits: no write is pending and the address is in the table. -/
def Hits (s : Fetcher T) (pc : Nat) : Prop :=
  s.maps.hasCodeWrites = false ∧ (s.cache.lookupEntry pc 0).1 = true

theorem Sound.ensure_cases (hs : Sound dec s) (pc : Nat) :
    (s.Hits pc ∧ ∃ k, ¬ (s.drained.cache.cacheEntries k).Free ∧
      (s.drained.cache.cacheEntries k).lpf = pc ∧ s.ensureInstructionCachePopulatedAarch64 dec pc =
        (.ok (), { s.drained with
          cache := s.drained.cache.atEntry (s.drained.cache.cacheEntries k) })) ∨
    ∃ c : InstructionCache T, ¬ s.Hits pc ∧ c.Tidy ∧ Shrinks s.drained.cache c ∧
      ((∃ tlb msg, s.ensureInstructionCachePopulatedAarch64 dec pc = (.error msg, { s.drained with
            maps := { s.drained.maps with tlb := tlb }, cache := c })) ∨
        ∃ tlb key code, s.drained.maps.searchMaps pc = some (key, code) ∧ ¬ c.Has pc ∧
          (∃ i, c.FirstFree (home pc) i) ∧
          s.ensureInstructionCachePopulatedAarch64 dec pc =
            (.ok (), { maps := { s.drained.maps with tlb := tlb }
                       cache := c.insertAarch64FromBlock dec (code.readBytes pc blockLen) pc
                       block := code.readBytes pc blockLen })) := by
  obtain ⟨hdrained, -⟩ := hs.drained
  obtain ⟨decoded, hstored, -⟩ := hdrained.blocks
  have hsame : s.maps.hasCodeWrites = false → s.drained = s := fun hwrites => by
    rw [Fetcher.drained, hwrites, if_neg Bool.false_ne_true]
  rcases lookupEntry_cases hstored.tidy pc with
    ⟨k, hused, hlpf, hlookup⟩ | ⟨c, hlookup, htidy, hshrinks, -, hnot, hfirst⟩
  · refine .inl ⟨?_, k, hused, hlpf, ?_⟩
    · have hwrites : s.maps.hasCodeWrites = false := by
        by_contra hwrites
        rw [Fetcher.drained, if_pos (by simpa using hwrites)] at hused
        exact hused rfl
      rw [hsame hwrites] at hlookup
      exact ⟨hwrites, by rw [hlookup]⟩
    · simp only [ensureInstructionCachePopulatedAarch64, hlookup, if_true]
  refine .inr ⟨c, ?_, htidy, hshrinks, ?_⟩
  · rintro ⟨hwrites, hhit⟩
    rw [hsame hwrites] at hlookup
    rw [hlookup] at hhit
    cases hhit
  obtain ⟨tlb, hfound⟩ := hdrained.wf.getMemByAddr_eq pc
  simp only [ensureInstructionCachePopulatedAarch64, hlookup, Bool.false_eq_true, if_false, hfound]
  split
  · exact .inl ⟨s.drained.maps.tlb, _, rfl⟩
  · cases hsearch : s.drained.maps.searchMaps pc with
    | none => exact .inl ⟨tlb, _, rfl⟩
    | some found => exact .inr ⟨tlb, found.1, found.2, rfl, hnot, hfirst, rfl⟩

variable {code : Mem64}

theorem pc_ne_invalid (hwf : m.Wf) (hfound : m.searchMaps pc = some (key, code)) :
    pc ≠ invalidLpfAddr := by
  obtain ⟨hget, hinside⟩ := hwf.searchMaps_eq_some.mp hfound
  have hbounded := hwf.bounded key code hget
  rw [Maps.inside_eq_true] at hinside
  have hmax : Mwemu.u64Max = invalidLpfAddr := by decide
  omega

theorem length_readBytes_le (r : Mem64) (pc len : Nat) : (r.readBytes pc len).length ≤ len := by
  rw [Mem64.readBytes]
  split
  · split
    · exact Nat.zero_le _
    · split
      · exact Nat.zero_le _
      · exact length_take_le _ _
  · exact Nat.zero_le _

theorem Sound.insert (hs : Sound dec s) (hempty : s.maps.codeWrites = []) {i : Nat}
    (hfound : s.maps.searchMaps pc = some (key, code)) (hexec : code.canExecute = true)
    (hnot : ¬ s.cache.Has pc) (hfirst : s.cache.FirstFree (home pc) i) : Sound dec { s with
      cache := s.cache.insertAarch64FromBlock dec (code.readBytes pc blockLen) pc } := by
  obtain ⟨decoded, hstored, hspells⟩ := hs.blocks
  have hget := (hs.wf.searchMaps_eq_some.mp hfound).1
  rcases insertAarch64_cases hstored.next dec (code.readBytes pc blockLen) pc with
    ⟨-, part, hinsert⟩ | ⟨-, -, hinsert⟩ | ⟨hroom, hblock, -⟩
  · rw [hinsert]
    exact ⟨hs.wf, hs.range, .inr rfl, fun _ => [], stored_of_free (fun _ => rfl) (Nat.zero_le _),
      fun _ _ hused => absurd rfl hused⟩
  · rw [hinsert]
    exact hs
  obtain ⟨c, k, hstored', hentries, hused, hlpf, hinsert⟩ :=
    hstored.insertAarch64 dec (pc_ne_invalid hs.wf hfound) hnot hfirst hroom hblock
  have hspell : dec.Spells s.maps.codeAt pc (dec.block (code.readBytes pc blockLen)) :=
    dec.spells_block fun j hj => (byteAt_readBytes hs.wf hget hj).2 hexec
  have hbelow := (hstored'.blocks k hused).below
  have hlen := hstored'.length k hused
  have hnext := hstored'.next
  rw [hinsert]
  refine ⟨hs.wf, ?_, .inl ?_, _, hstored'.moved _ _ _, fun _ j hj => ?_⟩
  · simp only [InstructionCache.atEntry]
    omega
  · simp only [InstructionCache.atEntry]
    omega
  simp only [InstructionCache.atEntry] at hj ⊢
  rcases hentries j hj with hpc | ⟨hused', heq⟩
  · rw [hpc, Function.update_self]
    exact hspell
  · rw [heq, Function.update_of_ne]
    · exact hspells hempty j hused'
    · exact fun hpc => hnot ⟨j, hused', hpc⟩

theorem Sound.fetch (hs : Sound dec s) (hcareful : s.Careful (.fetch pc)) :
    Sound dec (s.ensureInstructionCachePopulatedAarch64 dec pc).2 := by
  obtain ⟨hdrained, hempty⟩ := hs.drained
  have htlb : ∀ (t : Fetcher T) (tlb : Tlb), Sound dec t →
      Sound dec { t with maps := { t.maps with tlb := tlb } } := fun t tlb ht =>
    ht.memory (ht.wf.congr rfl rfl rfl) (Maps.Logged.of_eq rfl rfl rfl)
  rcases hs.ensure_cases pc with
    ⟨-, k, hused, -, hensure⟩ | ⟨c, -, htidy, hshrinks, ⟨tlb, msg, hensure⟩ |
      ⟨tlb, key, code, hfound, hnot, ⟨i, hfirst⟩, hensure⟩⟩
  · rw [hensure]
    exact hdrained.atEntry hused
  · rw [hensure]
    exact htlb _ tlb (hdrained.shrinks htidy hshrinks)
  rw [hensure]
  have hsearch : s.maps.searchMaps pc = some (key, code) := by
    rw [← hfound, Fetcher.drained]
    split <;> rfl
  have hinserted := (hdrained.shrinks htidy hshrinks).insert hempty hfound
    (hcareful key code hsearch) hnot hfirst
  have hsound := htlb _ tlb hinserted
  exact ⟨hsound.wf, hsound.range, hsound.cursor, hsound.blocks⟩

theorem Sound.step (hs : Sound dec s) {op : Op} {s' : Fetcher T} (hcareful : s.Careful op)
    (hstep : s.step dec op = some s') : Sound dec s' := by
  cases op with
  | memory op =>
    obtain ⟨m, hm, rfl⟩ := map_eq_some_iff.mp hstep
    obtain ⟨hwf, hlogged⟩ := hs.wf.codeStep hcareful hm
    exact hs.memory hwf hlogged
  | fetch pc =>
    cases hstep
    exact hs.fetch hcareful
  | decodeOut =>
    rw [Fetcher.step] at hstep
    split at hstep
    · rw [map_eq_some_iff] at hstep
      obtain ⟨⟨ins, c⟩, hout, rfl⟩ := hstep
      rw [InstructionCache.decodeOut, ite_none_right_eq_some] at hout
      cases hout.2
      obtain ⟨decoded, hstored, hspells⟩ := hs.blocks
      exact ⟨hs.wf, hs.range, hs.cursor, decoded, hstored.moved _ _ _, hspells⟩
    · cases hstep
      exact hs
  | restart =>
    cases hstep
    exact ⟨hs.wf, hs.range, hs.cursor, hs.blocks⟩

/-! ### What comes out after a fetch -/

/-- The next instruction out of the cache, if there is one, is the decoding of the bytes at `pc`. -/
def Yields (dec : WordDecoder T) (m : Maps) (c : InstructionCache T) (pc : Nat) : Prop :=
  c.canDecode = true → ∃ ins c', c.decodeOut = some (ins, c') ∧ dec.decodeAt m.byteAt pc = some ins

theorem byteAt_drained (s : Fetcher T) : s.drained.maps.byteAt = s.maps.byteAt := by
  rw [Fetcher.drained]
  split <;> rfl

theorem Sound.yields_iff_of_cursor (hs : Sound dec s)
    (hslot : c.currentInstructionSlot = s.cache.currentInstructionSlot)
    (hlen : c.currentDecodeLen = s.cache.currentDecodeLen)
    (hidx : c.currentDecodeIdx = s.cache.currentDecodeIdx) (hpending : s.cache.canDecode = true →
      c.instructions (s.cache.currentInstructionSlot + s.cache.currentDecodeIdx) = s.pending) :
    Yields dec s.maps c pc ↔
      s.cache.canDecode = false ∨ dec.decodeAt s.maps.byteAt pc = some s.pending := by
  have hcan : c.canDecode = s.cache.canDecode := by rw [canDecode, canDecode, hlen, hidx]
  rw [Yields, hcan]
  by_cases hmore : s.cache.canDecode = true
  · have hrange := hs.range
    have hlt : s.cache.currentDecodeIdx < s.cache.currentDecodeLen := by
      rwa [canDecode, decide_eq_true_eq] at hmore
    have hout : c.decodeOut = some (s.pending,
        { c with currentDecodeIdx := c.currentDecodeIdx + 1 }) := by
      rw [InstructionCache.decodeOut, hslot, hidx, if_pos (by omega), hpending hmore]
    constructor
    · intro hyields
      obtain ⟨ins, c', hout', hdecode⟩ := hyields hmore
      rw [hout] at hout'
      cases hout'
      exact .inr hdecode
    · rintro (hnone | hdecode) -
      · rw [hmore] at hnone
        cases hnone
      · exact ⟨_, _, hout, hdecode⟩
  · exact ⟨fun _ => .inl (by simpa using hmore), fun _ hmore' => absurd hmore' hmore⟩

theorem Sound.yields_insert (hs : Sound dec s) {decoded : Nat → List T} {i : Nat}
    (hstored : c.Stored decoded) (hsearch : s.maps.searchMaps pc = some (key, code))
    (hnot : ¬ c.Has pc) (hfirst : c.FirstFree (home pc) i)
    (hroom : c.nextInstructionSlot + dec.passes (code.readBytes pc blockLen) ≤
      instructionArraySize) (hblock : dec.block (code.readBytes pc blockLen) ≠ []) :
    Yields dec s.maps (c.insertAarch64FromBlock dec (code.readBytes pc blockLen) pc) pc := by
  intro _
  obtain ⟨c', k, hstored', -, hused, hlpf, hinsert⟩ :=
    hstored.insertAarch64 dec (pc_ne_invalid hs.wf hsearch) hnot hfirst hroom hblock
  have hget := (hs.wf.searchMaps_eq_some.mp hsearch).1
  have hspell : dec.Spells s.maps.byteAt pc (dec.block (code.readBytes pc blockLen)) :=
    dec.spells_block fun j hj => (byteAt_readBytes hs.wf hget hj).1
  have hpos : 0 < (dec.block (code.readBytes pc blockLen)).length := length_pos_iff.mpr hblock
  have hheld := hstored'.blocks k hused
  rw [hlpf, Function.update_self] at hheld
  have hbelow := hheld.below
  have hnext := hstored'.next
  rw [hinsert]
  refine ⟨_, _, if_pos ?_, ?_⟩
  · simp only [InstructionCache.atEntry]
    omega
  · simp only [InstructionCache.atEntry]
    rw [hheld.holds 0 hpos]
    exact hspell 0 hpos

/-- After a fetch that succeeds, what comes out is the instruction at `pc` exactly if the fetch was
fresh. -/
theorem Sound.yields_iff_fresh (hs : Sound dec s) {s' : Fetcher T}
    (hfetch : s.ensureInstructionCachePopulatedAarch64 dec pc = (.ok (), s')) :
    Yields dec s.maps s'.cache pc ↔ s.Fresh dec pc := by
  obtain ⟨hdrained, hempty⟩ := hs.drained
  have hbytes := byteAt_drained s
  rcases hs.ensure_cases pc with
    ⟨hhits, k, hused, rfl, hensure⟩ | ⟨c, hmiss, htidy, hshrinks, ⟨tlb, msg, hensure⟩ |
      ⟨tlb, key, code, hfound, hnot, ⟨i, hfirst⟩, hensure⟩⟩
  · rw [hensure] at hfetch
    cases hfetch
    refine iff_of_true (fun hmore => ?_) (.inr (.inr (.inl hhits)))
    rw [← hbytes]
    exact hdrained.decodeOut_atEntry hempty hused hmore
  · rw [hensure] at hfetch
    cases hfetch
  rw [hensure] at hfetch
  cases hfetch
  have hsearch : s.maps.searchMaps pc = some (key, code) := by
    rw [← hfound, Fetcher.drained]
    split <;> rfl
  have hdrain : Shrinks s.cache s.drained.cache := by
    rw [Fetcher.drained]
    split
    · exact shrinks_invalidateAll
    · exact ⟨fun _ => .inl rfl, rfl, rfl, rfl, rfl, rfl⟩
  have hcache := hdrain.trans hshrinks
  have hsound := hdrained.shrinks htidy hshrinks
  obtain ⟨decoded, hstored', -⟩ := hsound.blocks
  have hstored : c.Stored decoded := hstored'
  -- a fetch that inserts nothing is fresh only by the cursor it leaves
  have hstale : (¬ (dec.block (code.readBytes pc blockLen) ≠ [] ∧ c.nextInstructionSlot +
      dec.passes (code.readBytes pc blockLen) ≤ instructionArraySize)) →
      (s.Fresh dec pc ↔
        s.cache.canDecode = false ∨ dec.decodeAt s.maps.byteAt pc = some s.pending) := by
    intro hnone
    refine ⟨?_, fun h => h.elim .inl fun h => .inr (.inl h)⟩
    rintro (hend | hdecode | hhits | ⟨key', code', hfound', hblock, hroom⟩)
    · exact .inl hend
    · exact .inr hdecode
    · exact absurd hhits hmiss
    · rw [hsearch] at hfound'
      cases hfound'
      rw [← hcache.next] at hroom
      exact absurd ⟨hblock, hroom⟩ hnone
  rcases insertAarch64_cases hstored.next dec (code.readBytes pc blockLen) pc with
    ⟨hfull, part, hinsert⟩ | ⟨-, hnone, hinsert⟩ | ⟨hroom, hblock, -⟩
  · rw [hstale fun hroom => absurd hroom.2 (by omega), hinsert]
    refine hs.yields_iff_of_cursor hcache.slot hcache.len hcache.idx fun hmore => ?_
    -- the slots written lie behind the cursor: with none handed out there is always room
    have hpasses := dec.passes_le (code.readBytes pc blockLen)
    have hlen := length_readBytes_le code pc blockLen
    have hsizes : blockLen = 768 ∧ instructionArraySize = 524288 := by decide
    have hcursor := hs.cursor
    have hnext := hcache.next
    rw [canDecode, decide_eq_true_eq] at hmore
    have hbelow : s.cache.currentInstructionSlot + s.cache.currentDecodeIdx <
        c.nextInstructionSlot := by omega
    exact (written_below c part hbelow).trans (by rw [hcache.instructions, pending])
  · rw [hstale fun hroom => hroom.1 hnone, hinsert]
    refine hs.yields_iff_of_cursor hcache.slot hcache.len hcache.idx fun _ => ?_
    rw [hcache.instructions, pending]
  · refine iff_of_true ?_ (.inr (.inr (.inr ⟨key, code, hsearch, hblock, ?_⟩)))
    · exact hs.yields_insert hstored hsearch hnot hfirst hroom hblock
    · rw [← hcache.next]
      exact hroom

/-- In every state that a careful run reaches, a successful fetch at `pc` is followed by the
decoding of the four bytes at `pc`, or by nothing, exactly if the fetch is fresh. -/
theorem run_fetch_yields_iff (dec : WordDecoder T) (default : T) (ops : List Op)
    (hcareful : Along (step dec) Careful (new default) ops) (s : Fetcher T)
    (hrun : run (step dec) (new default) ops = some s) (pc : Nat) (s' : Fetcher T)
    (hfetch : s.ensureInstructionCachePopulatedAarch64 dec pc = (.ok (), s')) :
    Yields dec s.maps s'.cache pc ↔ s.Fresh dec pc := by
  have hs : Sound dec s := run_preserves (Sound dec) (fun _ _ _ hs hop hstep => hs.step hop hstep)
    (sound_new default) hcareful hrun
  exact hs.yields_iff_fresh hfetch

/-- An instruction set for the examples: the first byte of a word, except `0xff`. -/
def firstByte : WordDecoder UInt8 :=
  { decode := fun w => if w.head? = some 0xff then none else w.head?
    endsBlock := fun _ => false }

/-- Two instructions and a word that does not decode, with the second instruction still to come. -/
def halfRun : List Op :=
  [.memory (.layout (.createMap "code" 0 12 Maps.writableCode)),
    .memory (.writeBytes 0 [1, 0, 0, 0, 2, 0, 0, 0, 0xff, 0, 0, 0]), .fetch 0, .decodeOut]

theorem run_fetch_yields_iff_halfRun : ∃ s, run (step firstByte) (new 0) halfRun = some s ∧
      (s.Fresh firstByte 4 ∧ Yields firstByte s.maps
        (s.ensureInstructionCachePopulatedAarch64 firstByte 4).2.cache 4) ∧
      ¬ s.Fresh firstByte 8 ∧ ¬ Yields firstByte s.maps
        (s.ensureInstructionCachePopulatedAarch64 firstByte 8).2.cache 8 := by
  have hcareful : Along (step firstByte) Careful (new 0) halfRun := by decide +kernel
  have hreached : (run (step firstByte) (new 0) halfRun).any (fun s =>
      (s.ensureInstructionCachePopulatedAarch64 firstByte 4).1 = .ok () ∧
        firstByte.decodeAt s.maps.byteAt 4 = some s.pending ∧
        (s.ensureInstructionCachePopulatedAarch64 firstByte 8).1 = .ok () ∧
        (s.ensureInstructionCachePopulatedAarch64 firstByte 8).2.cache.canDecode = true ∧
        firstByte.decodeAt s.maps.byteAt 8 = none) = true := by
    decide +kernel
  obtain ⟨s, hrun, hfetches⟩ := (any_eq_true _ _).mp hreached
  obtain ⟨hok, hpending, hok', hmore, hnone⟩ := of_decide_eq_true hfetches
  have hiff := run_fetch_yields_iff firstByte 0 halfRun hcareful s hrun
  have hfresh : s.Fresh firstByte 4 := .inr (.inl hpending)
  have hstale : ¬ Yields firstByte s.maps
      (s.ensureInstructionCachePopulatedAarch64 firstByte 8).2.cache 8 := by
    intro hyields
    obtain ⟨ins, c', -, hdecode⟩ := hyields hmore
    rw [hnone] at hdecode
    cases hdecode
  exact ⟨s, hrun, ⟨hfresh, (hiff 4 _ (Prod.ext hok rfl)).mpr hfresh⟩,
    fun hfresh' => hstale ((hiff 8 _ (Prod.ext hok' rfl)).mpr hfresh'), hstale⟩

/-- The fetch at the third word succeeds, inserts nothing, and yields the second instruction. -/
theorem fetch_undecodable_stale : (run (step firstByte) (new 0) halfRun).map (fun s =>
      let out := s.ensureInstructionCachePopulatedAarch64 firstByte 8
      (out.1, out.2.cache.canDecode, out.2.cache.decodeOut.map Prod.fst,
        firstByte.decodeAt s.maps.byteAt 8)) = some (.ok (), true, some 2, none) := by
  decide +kernel

end Fetcher

end Mwemu.Cache
