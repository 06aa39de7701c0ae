import Mwemu.Cache.Blocks

/-!
# Blocks of x86 instructions

`insert_x86_from_decoder` decodes a block straight into the slots behind the last one handed out.
The decoder is a parameter: a deterministic function of the bytes and the address that moves forward
by at least a byte and never past the end.
-/

namespace Mwemu.Cache

open Mwemu.Lib List Option

/-- An instruction decoder: `decode` gives the instruction at a position of the bytes and the
position after it, and `endsBlock` recognises the jumps and calls. -/
structure Decoder (T : Type) where
  decode : List UInt8 → Nat → Nat → T × Nat
  endsBlock : T → Bool
  advances : ∀ bytes ip position, position < bytes.length →
    position < (decode bytes ip position).2 ∧ (decode bytes ip position).2 ≤ bytes.length

variable {T : Type}

/-- A pass of the decoding loop: the instruction decoded and, unless it ends the block, the position
the next pass starts from; `none` when the loop condition fails. -/
def Decoder.pass (dec : Decoder T) (bytes : List UInt8) (ip addition position : Nat) :
    Option (T × Option Nat) :=
  if position < bytes.length ∧ position + addition ≤ bytes.length then
    let (native, position') := dec.decode bytes ip position
    some (native, if dec.endsBlock native then none else some position')
  else none

def Decoder.block (dec : Decoder T) (bytes : List UInt8) (ip addition : Nat) : Nat → Nat → List T
  | 0, _ => []
  | fuel + 1, position =>
    match dec.pass bytes ip addition position with
    | none => []
    | some (native, none) => [native]
    | some (native, some position') => native :: dec.block bytes ip addition fuel position'

variable {dec : Decoder T} {bytes : List UInt8} {position : Nat}

namespace InstructionCache

/-- The decoding loop; the result is the number of instructions, `none` a write past the end of
`instructions`. A pass moves the decoder forward, so `fuel` passes are enough for as many bytes. -/
def fillX86 (dec : Decoder T) (bytes : List UInt8) (ip addition slot : Nat) :
    Nat → Nat → Nat → InstructionCache T → Option (Nat × InstructionCache T)
  | 0, _, count, c => some (count, c)
  | fuel + 1, position, count, c =>
    match dec.pass bytes ip addition position with
    | none => some (count, c)
    | some (native, none) =>
      (c.setInstruction (slot + count) native).map fun c => (count + 1, c)
    | some (native, some position') =>
      (c.setInstruction (slot + count) native).bind
        (fillX86 dec bytes ip addition slot fuel position' (count + 1))

/-- `insert_x86_from_decoder` with what its last lookup, the one of the debug assertion, says. -/
def closingX86 (c : InstructionCache T) (dec : Decoder T) (bytes : List UInt8)
    (addition ripAddr : Nat) : Option (Bool × InstructionCache T) := do
  let slot := c.nextInstructionSlot
  let maxPosition := bytes.length
  let c :=
    if instructionArraySize < maxPosition + c.nextInstructionSlot then c.flushCache else c
  let (count, c) ← fillX86 dec bytes ripAddr addition slot maxPosition 0 0 c
  let c := { c with nextInstructionSlot := c.nextInstructionSlot + count }
  let c := c.storeEntry ripAddr slot count
  some (c.lookupEntry ripAddr 0)

def insertX86FromDecoder (c : InstructionCache T) (dec : Decoder T) (bytes : List UInt8)
    (addition ripAddr : Nat) : Option (InstructionCache T) :=
  (c.closingX86 dec bytes addition ripAddr).map Prod.snd

variable {c : InstructionCache T}

theorem drain_eq (hnext : c.nextInstructionSlot ≤ instructionArraySize) {block : List T}
    (hblock : c.Holds c.currentInstructionSlot block) (hlen : c.currentDecodeLen = block.length)
    (rest : Nat) (hrest : c.currentDecodeIdx + rest = block.length) :
    c.drain rest = some (block.drop c.currentDecodeIdx) := by
  induction rest generalizing c with
  | zero =>
    have hend : c.canDecode = false := by
      rw [canDecode, decide_eq_false_iff_not]
      omega
    rw [drain, hend, drop_of_length_le (by omega)]
    rfl
  | succ rest ih =>
    have hbelow := hblock.below
    have hmore : c.canDecode = true := by
      rw [canDecode, decide_eq_true_eq]
      omega
    have hidx : c.currentDecodeIdx < block.length := by omega
    have hrest' := ih (c := { c with currentDecodeIdx := c.currentDecodeIdx + 1 }) hnext
      ⟨hblock.below, hblock.holds⟩ hlen (by simp only; omega)
    rw [drain, if_pos hmore, decodeOut, if_pos (by omega), bind_some, hrest',
      hblock.holds _ hidx, map_some, drop_eq_getElem_cons hidx]

/-! ### The decoding loop -/

theorem length_block_le (dec : Decoder T) (bytes : List UInt8) (ip addition fuel position : Nat) :
    (dec.block bytes ip addition fuel position).length ≤ fuel := by
  induction fuel generalizing position with
  | zero => exact Nat.le_refl _
  | succ fuel ih =>
    rw [Decoder.block]
    cases dec.pass bytes ip addition position with
    | none => exact Nat.zero_le _
    | some pass =>
      obtain ⟨native, _ | position'⟩ := pass
      · simp
      · exact Nat.succ_le_succ (ih position')

theorem fillX86_eq (dec : Decoder T) (bytes : List UInt8) (ip addition slot : Nat) {count : Nat}
    (hroom : slot + count + (dec.block bytes ip addition fuel position).length ≤
      instructionArraySize) : fillX86 dec bytes ip addition slot fuel position count c =
      some (count + (dec.block bytes ip addition fuel position).length,
        c.written (slot + count) (dec.block bytes ip addition fuel position)) := by
  induction fuel generalizing position count c with
  | zero => simp [fillX86, Decoder.block, written_nil]
  | succ fuel ih =>
    rw [Decoder.block] at hroom ⊢
    rw [fillX86]
    cases hpass : dec.pass bytes ip addition position with
    | none => simp [written_nil]
    | some pass =>
      obtain ⟨native, _ | position'⟩ := pass
      · simp only [hpass, length_singleton] at hroom
        have hset : slot + count < instructionArraySize := by omega
        simp only [setInstruction_eq c native hset, ← written_cons,
          written_nil, map_some, length_singleton]
      simp only [hpass, length_cons] at hroom
      have hset : slot + count < instructionArraySize := by omega
      simp only [setInstruction_eq c native hset, ← written_cons, bind_some, length_cons]
      rw [ih (by omega)]
      congr 2
      omega

theorem fillX86_eq_none (dec : Decoder T) (bytes : List UInt8) (ip addition slot : Nat)
    {count : Nat} (hslot : slot + count ≤ instructionArraySize) (hroom : instructionArraySize <
      slot + count + (dec.block bytes ip addition fuel position).length) :
    fillX86 dec bytes ip addition slot fuel position count c = none := by
  induction fuel generalizing position count c with
  | zero => simp only [Decoder.block, length_nil] at hroom; omega
  | succ fuel ih =>
    rw [Decoder.block] at hroom
    rw [fillX86]
    cases hpass : dec.pass bytes ip addition position with
    | none => simp only [hpass, length_nil] at hroom; omega
    | some pass =>
      by_cases hfull : slot + count < instructionArraySize
      · obtain ⟨native, _ | position'⟩ := pass
        · simp only [hpass, length_singleton] at hroom
          omega
        · simp only [hpass, length_cons] at hroom
          simp only [setInstruction_eq c native hfull, bind_some]
          exact ih (by omega) (by omega)
      · obtain ⟨native, _ | position'⟩ := pass <;> simp [setInstruction, hfull]

/-! ### Runs -/

end InstructionCache

def Decoder.decodeBlock (dec : Decoder T) (bytes : List UInt8) (ip addition : Nat) : List T :=
  dec.block bytes ip addition bytes.length 0

/-- A cache with the instructions that were decoded when an address was last inserted. -/
structure Traced (T : Type) where
  cache : InstructionCache T
  decoded : Nat → List T

inductive Op where
  | lookup (addr : Nat)
  /-- a lookup and, when it misses, the insertion of the block at the address -/
  | fetch (addr : Nat) (bytes : List UInt8) (addition : Nat)
  | invalidateRange (addr len blockLen : Nat)
  | invalidateAll
  /-- `decode_out`, by a caller that has checked `can_decode` -/
  | decodeOut

namespace Traced

def new (default : T) : Traced T :=
  { cache := InstructionCache.new default, decoded := fun _ => [] }

def insert (dec : Decoder T) (s : Traced T) (addr : Nat) (bytes : List UInt8) (addition : Nat) :
    Option (Traced T) :=
  (s.cache.insertX86FromDecoder dec bytes addition addr).map fun cache =>
    { cache, decoded := Function.update s.decoded addr (dec.decodeBlock bytes addr addition) }

def step (dec : Decoder T) (s : Traced T) : Op → Option (Traced T)
  | .lookup addr => some { s with cache := (s.cache.lookupEntry addr 0).2 }
  | .fetch addr bytes addition =>
    let looked := { s with cache := (s.cache.lookupEntry addr 0).2 }
    if (s.cache.lookupEntry addr 0).1 then some looked
    else looked.insert dec addr bytes addition
  | .invalidateRange addr len blockLen =>
    some { s with cache := s.cache.invalidateRange addr len blockLen }
  | .invalidateAll => some { s with cache := s.cache.invalidateAll }
  | .decodeOut =>
    if s.cache.canDecode then s.cache.decodeOut.map fun r => { s with cache := r.2 } else some s

/-- The step does not recycle the slots: an insertion finds room for its bytes. -/
def Fits (s : Traced T) : Op → Prop
  | .fetch addr bytes _ =>
    (s.cache.lookupEntry addr 0).1 = true ∨
      bytes.length + s.cache.nextInstructionSlot ≤ instructionArraySize
  | _ => True

open InstructionCache

/-- The table leads to the blocks last decoded, and the cursor stays in slots handed out. -/
structure Sound (s : Traced T) : Prop where
  stored : s.cache.Stored s.decoded
  cursor : s.cache.currentInstructionSlot + s.cache.currentDecodeLen ≤
    s.cache.nextInstructionSlot

theorem sound_new (default : T) : (new default).Sound :=
  ⟨stored_of_free (fun _ => rfl) (Nat.zero_le _), Nat.le_refl _⟩

variable {s : Traced T}

theorem Sound.shrinks (hs : s.Sound) {c : InstructionCache T} (htidy : c.Tidy)
    (hshrinks : Shrinks s.cache c) : Sound { s with cache := c } := by
  refine ⟨hs.stored.shrinks htidy hshrinks, ?_⟩
  simp only [hshrinks.slot, hshrinks.len, hshrinks.next]
  exact hs.cursor

theorem Sound.atEntry (hs : s.Sound) {k : Nat} (hused : ¬ (s.cache.cacheEntries k).Free) :
    Sound { s with cache := s.cache.atEntry (s.cache.cacheEntries k) } := by
  have hbelow := (hs.stored.blocks k hused).below
  have hlen := hs.stored.length k hused
  refine ⟨hs.stored.moved _ _ _, ?_⟩
  simp only [InstructionCache.atEntry]
  omega

theorem Sound.lookupEntry (hs : s.Sound) (addr : Nat) :
    Sound { s with cache := (s.cache.lookupEntry addr 0).2 } := by
  rcases lookupEntry_cases hs.stored.tidy addr with
    ⟨k, hused, -, heq⟩ | ⟨c, heq, htidy, hshrinks, -⟩
  · rw [heq]
    exact hs.atEntry hused
  · rw [heq]
    exact hs.shrinks htidy hshrinks

/-- The state between the decoding loop of an insertion and its last lookup. -/
def stored (dec : Decoder T) (s : Traced T) (addr : Nat) (bytes : List UInt8) (addition : Nat) :
    Traced T :=
  let block := dec.decodeBlock bytes addr addition
  { cache := (s.cache.extend block).storeEntry addr s.cache.nextInstructionSlot block.length
    decoded := Function.update s.decoded addr block }

theorem insert_eq (dec : Decoder T) (s : Traced T) (addr : Nat) (bytes : List UInt8)
    (addition : Nat) (hroom : bytes.length + s.cache.nextInstructionSlot ≤ instructionArraySize) :
    s.insert dec addr bytes addition = some { s.stored dec addr bytes addition with
        cache := ((s.stored dec addr bytes addition).cache.lookupEntry addr 0).2 } := by
  have hlen := length_block_le dec bytes addr addition bytes.length 0
  rw [insert, insertX86FromDecoder, closingX86, if_neg (by omega), fillX86_eq _ _ _ _ _ (by omega)]
  simp only [Nat.zero_add, Nat.add_zero]
  rfl

theorem Sound.insert (hs : s.Sound) (dec : Decoder T) (addition : Nat) {addr i : Nat}
    (hnot : ¬ s.cache.Has addr) (hfirst : s.cache.FirstFree (home addr) i)
    (hroom : bytes.length + s.cache.nextInstructionSlot ≤ instructionArraySize) :
    ∃ s', s.insert dec addr bytes addition = some s' ∧ s'.Sound := by
  have hlen : (dec.decodeBlock bytes addr addition).length ≤ bytes.length :=
    length_block_le dec bytes addr addition bytes.length 0
  have hextend := hs.stored.extend (dec.decodeBlock bytes addr addition) (by omega)
  have hstored : (s.stored dec addr bytes addition).Sound := by
    refine ⟨hextend.storeEntry hnot hfirst ⟨Nat.le_refl _, fun _ hi => written_block _ _ hi⟩, ?_⟩
    have hcursor := hs.cursor
    simp only [Traced.stored, storeEntry_cursor, storeEntry_next, InstructionCache.extend, written]
    omega
  exact ⟨_, insert_eq dec s addr bytes addition hroom, hstored.lookupEntry addr⟩

theorem Sound.step {op : Op} (hs : s.Sound) (hfits : s.Fits op) :
    ∃ s', s.step dec op = some s' ∧ s'.Sound := by
  cases op with
  | lookup addr => exact ⟨_, rfl, hs.lookupEntry addr⟩
  | fetch addr bytes addition =>
    have hlooked := hs.lookupEntry addr
    rcases lookupEntry_cases hs.stored.tidy addr with
      ⟨k, hused, -, heq⟩ | ⟨c, heq, htidy, hshrinks, -, hnot, i, hfirst⟩
    · refine ⟨_, ?_, hlooked⟩
      rw [Traced.step, heq]
      rfl
    rw [Fits, heq, ← hshrinks.next] at hfits
    rw [heq] at hlooked
    obtain ⟨s', hinsert, hs'⟩ := hlooked.insert dec addition hnot hfirst
      (hfits.resolve_left (by simp))
    refine ⟨s', ?_, hs'⟩
    rw [Traced.step, heq]
    exact hinsert
  | invalidateRange addr len blockLen =>
    obtain ⟨htidy, hshrinks⟩ := invalidateRange_spec addr len blockLen hs.stored.tidy
    exact ⟨_, rfl, hs.shrinks htidy hshrinks⟩
  | invalidateAll => exact ⟨_, rfl, hs.shrinks .invalidateAll shrinks_invalidateAll⟩
  | decodeOut =>
    rw [Traced.step]
    split
    case isFalse => exact ⟨s, rfl, hs⟩
    case isTrue hmore =>
        have hcursor := hs.cursor
        have hnext := hs.stored.next
        rw [canDecode, decide_eq_true_eq] at hmore
        rw [decodeOut, if_pos (by omega), map_some]
        exact ⟨_, rfl, hs.stored.moved _ _ _, hs.cursor⟩

theorem Sound.drain (hs : s.Sound) {addr : Nat} {c : InstructionCache T}
    (hhit : s.cache.lookupEntry addr 0 = (true, c)) :
    c.drain c.currentDecodeLen = some (s.decoded addr) := by
  rcases lookupEntry_cases hs.stored.tidy addr with ⟨k, hused, rfl, heq⟩ | ⟨c', heq, -⟩
  · obtain rfl : s.cache.atEntry (s.cache.cacheEntries k) = c := by
      rw [heq] at hhit
      exact (Prod.mk.inj hhit).2
    have hlen := hs.stored.length k hused
    have hblock := hs.stored.blocks k hused
    have hdrain := drain_eq (c := s.cache.atEntry (s.cache.cacheEntries k))
      hs.stored.next ⟨hblock.below, hblock.holds⟩ hlen (s.cache.cacheEntries k).instructionLen
      (by simpa [InstructionCache.atEntry] using hlen)
    simpa [InstructionCache.atEntry] using hdrain
  · rw [heq] at hhit
    simp at hhit

/-- In a run whose insertions find room for their bytes, nothing is accessed out of bounds and every
hit yields the instructions last decoded at its address. -/
theorem run_fits_sound (dec : Decoder T) (default : T) (ops : List Op)
    (hfits : Along (step dec) Fits (new default) ops) :
    ∃ s, run (step dec) (new default) ops = some s ∧
      ∀ addr c, s.cache.lookupEntry addr 0 = (true, c) →
        c.drain c.currentDecodeLen = some (s.decoded addr) := by
  obtain ⟨s, hrun, hs⟩ := run_invariant Sound (fun _ _ hs hop => hs.step hop)
    (sound_new default) hfits
  exact ⟨s, hrun, fun _ _ hhit => hs.drain hhit⟩

/-! ### The recycled slots -/

def byteDecoder : Decoder UInt8 where
  decode bytes _ position := (bytes.getD position 0, position + 1)
  endsBlock _ := false
  advances _ _ _ hposition := ⟨Nat.lt_succ_self _, hposition⟩

theorem run_fits_sound_nop :
    Along (step byteDecoder) Fits (new 0) [.fetch 0x401000 [0x90, 0x90, 0x90] 1, .lookup 0x401000] ∧
      ∃ s, run (step byteDecoder) (new 0) [.fetch 0x401000 [0x90, 0x90, 0x90] 1, .lookup 0x401000] =
          some s ∧ ∀ addr c, s.cache.lookupEntry addr 0 = (true, c) →
          c.drain c.currentDecodeLen = some (s.decoded addr) := by
  have hfits : Along (step byteDecoder) Fits (new 0)
      [.fetch 0x401000 [0x90, 0x90, 0x90] 1, .lookup 0x401000] :=
    ⟨.inr (by decide), fun _ _ => ⟨trivial, fun _ _ => trivial⟩⟩
  exact ⟨hfits, run_fits_sound byteDecoder 0 _ hfits⟩

/-- The longest block the run loop reads, `BLOCK_LEN` bytes, all of them `nop`. -/
def nopBlock : List UInt8 := List.replicate 0x300 0x90

theorem length_decodeBlock_nopBlock : (byteDecoder.decodeBlock nopBlock 0 16).length = 753 := by
  decide +kernel

/-- An empty table with `n` slots handed out. -/
structure Cleared (n : Nat) (s : Traced UInt8) : Prop where
  free : ∀ k, (s.cache.cacheEntries k).Free
  next : s.cache.nextInstructionSlot = n

theorem Cleared.lookupEntry {n : Nat} {s : Traced UInt8} (hs : Cleared n s) :
    ∃ c, s.cache.lookupEntry 0 0 = (false, c) ∧ c.nextInstructionSlot = n := by
  have htidy : s.cache.Tidy :=
    ⟨fun k hused => absurd (hs.free k) hused, fun k _ _ _ hused => absurd (hs.free k) hused⟩
  rcases lookupEntry_cases htidy 0 with ⟨k, hused, -⟩ | ⟨c, heq, -, hshrinks, -⟩
  · exact absurd (hs.free k) hused
  · exact ⟨c, heq, hshrinks.next.trans hs.next⟩

def nopRound : List Op := [.fetch 0 nopBlock 16, .invalidateAll]

theorem Cleared.nopRound {n : Nat} {s : Traced UInt8} (hs : Cleared n s)
    (hroom : n + 0x300 ≤ instructionArraySize) :
    ∃ s', run (step byteDecoder) s nopRound = some s' ∧ Cleared (n + 753) s' := by
  obtain ⟨c, heq, hnext⟩ := hs.lookupEntry
  have hlen : nopBlock.length = 0x300 := length_replicate
  have hinsert := insert_eq byteDecoder { s with cache := c } 0 nopBlock 16 (by simp only; omega)
  have hstep : step byteDecoder s (.fetch 0 nopBlock 16) =
      Traced.insert byteDecoder { s with cache := c } 0 nopBlock 16 := by
    rw [Traced.step, heq]
    rfl
  rw [hinsert] at hstep
  rw [Traced.nopRound, run, hstep, bind_some, run, Traced.step, bind_some, run]
  refine ⟨_, rfl, fun _ => rfl, ?_⟩
  change (InstructionCache.lookupEntry _ 0 0).2.nextInstructionSlot = _
  rw [lookupEntry_next, stored, storeEntry_next, InstructionCache.extend,
    length_decodeBlock_nopBlock]
  simp only [hnext]

theorem Cleared.nopRounds (rounds : Nat) (hrounds : rounds ≤ 696) :
    ∃ s, run (step byteDecoder) (new 0) (List.replicate rounds Traced.nopRound).flatten = some s ∧
      Cleared (753 * rounds) s := by
  induction rounds with
  | zero => exact ⟨new 0, rfl, fun _ => rfl, rfl⟩
  | succ rounds ih =>
    obtain ⟨s, hrun, hs⟩ := ih (by omega)
    have hsize : instructionArraySize = 524288 := rfl
    obtain ⟨s', hround, hs'⟩ := hs.nopRound (by omega)
    refine ⟨s', ?_, hs'⟩
    rw [replicate_succ', flatten_append, run_append, hrun, bind_some,
      flatten_cons, flatten_nil, append_nil]
    exact hround

/-- After 696 rounds the next block does not fit: the insertion flushes the table, which rewinds the
slots, but decodes from the slot it took before, and runs past the end of the array. -/
theorem insert_past_end_after_flush : run (step byteDecoder) (new 0)
      ((List.replicate 696 Traced.nopRound).flatten ++ [.fetch 0 nopBlock 16]) = none := by
  obtain ⟨s, hrun, hs⟩ := Cleared.nopRounds 696 (Nat.le_refl _)
  obtain ⟨c, heq, hnext⟩ := hs.lookupEntry
  have hsize : instructionArraySize = 524288 := rfl
  have hlen : nopBlock.length = 0x300 := length_replicate
  have hpanic : Traced.insert byteDecoder { s with cache := c } 0 nopBlock 16 = none := by
    have hblock := length_decodeBlock_nopBlock
    rw [Decoder.decodeBlock] at hblock
    rw [Traced.insert, insertX86FromDecoder, closingX86, if_pos (by simp only; omega),
      fillX86_eq_none _ _ _ _ _ (by simp only; omega) (by simp only; omega)]
    rfl
  have hstep : step byteDecoder s (.fetch 0 nopBlock 16) = none := by
    rw [Traced.step, heq]
    exact hpanic
  rw [run_append, hrun, bind_some, run, hstep]
  rfl

end Traced

end Mwemu.Cache
