import Mwemu.Lib.Run

/-!
# The cache of decoded instructions

A table of 2048 lines with 32 entries each maps the address of a block to the slots its decoded
instructions lie in; the slots are handed out in order from one array. A cursor, the slot, length
and index of the block being executed, is set by a lookup that hits.

The two arrays are functions of the index. The entry of a line is always in range
(`getIndexOf_add_lt`); an access to `instructions` past its end is a panic.
-/

namespace Mwemu.Cache

def instructionArraySize : Nat := 8192 * 64
def numLines : Nat := 2048
def maxCachePerLine : Nat := 32

def u64Max : Nat := 0xffffffffffffffff
def invalidLpfAddr : Nat := u64Max
def invalidKey : Nat := u64Max
def invalidLen : Nat := u64Max

def lpfOf (addr : Nat) : Nat := addr &&& 0xfffffffffffff000

structure CachedInstruction where
  lpf : Nat
  instructionKey : Nat
  instructionLen : Nat
  deriving DecidableEq, Repr

def CachedInstruction.default : CachedInstruction :=
  { lpf := invalidLpfAddr, instructionKey := invalidKey, instructionLen := invalidLen }

/-- An entry whose address is the invalid one is free. -/
def CachedInstruction.Free (entry : CachedInstruction) : Prop :=
  entry.lpf = invalidLpfAddr

instance (entry : CachedInstruction) : Decidable entry.Free :=
  inferInstanceAs (Decidable (_ = _))

structure InstructionCache (T : Type) where
  cacheEntries : Nat → CachedInstruction
  instructions : Nat → T
  nextInstructionSlot : Nat
  currentInstructionSlot : Nat
  currentDecodeLen : Nat
  currentDecodeIdx : Nat

def getIndexOf (lpf len : Nat) : Nat :=
  ((((lpf + len) % 2 ^ 64) >>> 12) &&& (numLines - 1)) * maxCachePerLine

namespace InstructionCache

variable {T : Type}

def new (default : T) : InstructionCache T :=
  { cacheEntries := fun _ => CachedInstruction.default
    instructions := fun _ => default
    nextInstructionSlot := 0
    currentInstructionSlot := 0
    currentDecodeLen := 0
    currentDecodeIdx := 0 }

def flushCacheLine (c : InstructionCache T) (idx : Nat) : InstructionCache T :=
  { c with
    cacheEntries := fun k =>
      if idx ≤ k ∧ k < idx + maxCachePerLine then
        { c.cacheEntries k with lpf := invalidLpfAddr }
      else c.cacheEntries k }

def invalidateAll (c : InstructionCache T) : InstructionCache T :=
  { c with cacheEntries := fun k => { c.cacheEntries k with lpf := invalidLpfAddr } }

def flushCache (c : InstructionCache T) : InstructionCache T :=
  { c with cacheEntries := fun _ => CachedInstruction.default, nextInstructionSlot := 0 }

/-- The loop over the pages from `page` to `last`; there are at most `numLines` of them. -/
def flushPages : Nat → Nat → Nat → InstructionCache T → InstructionCache T
  | 0, _, _, c => c
  | fuel + 1, page, last, c =>
    let c := c.flushCacheLine (getIndexOf page 0)
    if last ≤ page then c else flushPages fuel (page + 0x1000) last c

def invalidateRange (c : InstructionCache T) (addr len blockLen : Nat) : InstructionCache T :=
  let stop := min (addr + len) u64Max
  let first := lpfOf (addr - (blockLen - 1))
  let last := lpfOf (max (stop - 1) addr)
  if numLines ≤ (last - first) >>> 12 then c.invalidateAll
  else flushPages numLines first last c

/-- The first entry of the line at `idx` that is free or belongs to `addr`. -/
def probe (c : InstructionCache T) (idx addr : Nat) : Option Nat :=
  (List.range maxCachePerLine).find? fun i =>
    decide (c.cacheEntries (idx + i)).Free || (c.cacheEntries (idx + i)).lpf == addr

/-- A hit sets the cursor to the block; a probe that finds the line full flushes it. -/
def lookupEntry (c : InstructionCache T) (addr len : Nat) : Bool × InstructionCache T :=
  let idx := getIndexOf (lpfOf addr) len
  match c.probe idx addr with
  | none => (false, c.flushCacheLine idx)
  | some i =>
    let entry := c.cacheEntries (idx + i)
    if entry.Free then (false, c)
    else (true,
      { c with
        currentInstructionSlot := entry.instructionKey
        currentDecodeLen := entry.instructionLen
        currentDecodeIdx := 0 })

def canDecode (c : InstructionCache T) : Bool :=
  decide (c.currentDecodeIdx < c.currentDecodeLen)

def decodeOut (c : InstructionCache T) : Option (T × InstructionCache T) :=
  let index := c.currentInstructionSlot + c.currentDecodeIdx
  if index < instructionArraySize then
    some (c.instructions index, { c with currentDecodeIdx := c.currentDecodeIdx + 1 })
  else none

def setInstruction (c : InstructionCache T) (index : Nat) (ins : T) :
    Option (InstructionCache T) :=
  if index < instructionArraySize then
    some { c with instructions := Function.update c.instructions index ins }
  else none

/-- The tail shared by the insertions: a free entry of the line takes the block. -/
def storeEntry (c : InstructionCache T) (addr slot count : Nat) : InstructionCache T :=
  let idx := getIndexOf (lpfOf addr) 0
  match (List.range maxCachePerLine).find? fun i => decide (c.cacheEntries (idx + i)).Free with
  | none => c
  | some i =>
    { c with
      cacheEntries := Function.update c.cacheEntries (idx + i)
        { lpf := addr, instructionKey := slot, instructionLen := count } }

def drain (c : InstructionCache T) : Nat → Option (List T)
  | 0 => if c.canDecode then none else some []
  | fuel + 1 =>
    if c.canDecode then
      c.decodeOut.bind fun r => (r.2.drain fuel).map (r.1 :: ·)
    else some []

end InstructionCache

end Mwemu.Cache
