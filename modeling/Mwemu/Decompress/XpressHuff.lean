import Mwemu.Decompress.Bytes

/-!
# Xpress with Huffman codes

`xpress_huff_decompress` decodes one block of at most 64 KiB after another, each with its own table
of 512 code lengths. The bits of a block wait in a 32-bit reservoir, `bitBuf` with `bitsLeft` bits,
that `refill` tops up two bytes at a time; a decoding turn takes a code from it and, for a match,
the extra bits of the offset.
-/

namespace Mwemu.Decompress

open Mwemu.Lib

/-! ### The decoding table -/

/-- `decode_table`: the entry of 15 buffered bits is a symbol in its low nine bits and the length of
the symbol's code above them; an entry 0 is no code. -/
abbrev DecodeTable := Nat → Nat

def decodeTableLen : Nat := 1 <<< 15

/-- The code lengths `lens`, the low nibble of a table byte before its high nibble. -/
def huffLens (tableData : List UInt8) : List Nat :=
  tableData.flatMap fun b => [b.toNat &&& 0x0F, (b.toNat >>> 4) &&& 0x0F]

def fillTable (base fillCount entry : Nat) (table : DecodeTable) : Except Fault DecodeTable := do
  let body (j : Nat) (table : DecodeTable) : Except Fault (LoopStep DecodeTable Empty) := do
    let idx ← addW 32 base j
    pure (.next (if idx < decodeTableLen then Function.update table idx entry else table))
  let result ← forRange body 0 fillCount table
  pure (result.elim id Empty.elim)

def tableOfLength (bitLen : Nat) : List Nat → Nat → DecodeTable × Nat →
    Except Fault (DecodeTable × Nat)
  | [], _, (table, code) => pure (table, code)
  | len :: lens, sym, (table, code) =>
    if len ≠ bitLen then tableOfLength bitLen lens (sym + 1) (table, code)
    else do
      let fillCount := 1 <<< (15 - bitLen)
      let reversed := (BitVec.ofNat 16 code).reverse.toNat >>> (16 - bitLen)
      let base ← shlW 32 reversed (15 - bitLen)
      let table ← fillTable base fillCount (sym ||| (bitLen <<< 9)) table
      let code ← addW 32 code 1
      tableOfLength bitLen lens (sym + 1) (table, code)

def buildTable (lens : List Nat) : Except Fault DecodeTable := do
  let body (bitLen : Nat) (s : DecodeTable × Nat) :
      Except Fault (LoopStep (DecodeTable × Nat) Empty) := do
    let (table, code) ← tableOfLength bitLen lens 0 s
    let code ← shlW 32 code 1
    pure (.next (table, code))
  let result ← forRange body 1 15 (fun _ => 0, 0)
  pure (result.elim Prod.fst Empty.elim)

/-! ### The bit reservoir -/

structure HuffState where
  out : List UInt8
  bitBuf : Nat
  bitsLeft : Nat
  cpos : Nat

/-- A pass of the loop in the closure `refill`, with its condition
`*left < 16 && *p + 1 < data.len()`. -/
def refillPass (data : List UInt8) (s : HuffState) : Except Fault (LoopStep HuffState Empty) :=
  if s.bitsLeft < 16 then do
    let next ← addW 64 s.cpos 1
    if next < data.length then do
      let word ← readU16Le data s.cpos
      let bitsLeft ← addW 32 s.bitsLeft 16
      let cpos ← addW 64 s.cpos 2
      let bitBuf := (s.bitBuf ||| (word <<< s.bitsLeft)) % 2 ^ 32
      pure (.next { s with bitBuf, bitsLeft, cpos })
    else pure (.leave s)
  else pure (.leave s)

def refill (data : List UInt8) (s : HuffState) : Except Fault HuffState := do
  let result ← whileLoop .outOfFuel (fun _ => true) (refillPass data) (data.length + 1) s
  pure (result.elim id Empty.elim)

def refillBelow (data : List UInt8) (need : Nat) (s : HuffState) : Except Fault HuffState :=
  if s.bitsLeft < need then refill data s else pure s

/-! ### A decoding turn -/

/-- The offset of a match, from the bit its logarithm stands for and the extra bits. -/
def huffOffset (extraOffsetBits : Nat) (s : HuffState) : Except Fault (Nat × HuffState) :=
  if 0 < extraOffsetBits then do
    let extra := s.bitBuf &&& ((1 <<< extraOffsetBits) - 1)
    let bitBuf ← shrW 32 s.bitBuf extraOffsetBits
    let bitsLeft ← subW s.bitsLeft extraOffsetBits
    pure ((1 <<< extraOffsetBits) + extra, { s with bitBuf, bitsLeft })
  else pure (1, s)

/-- The end of a match: its escaped length, the test of its offset and the copy. -/
def huffCopy (data : List UInt8) (limit matchSym offset : Nat) (s : HuffState) :
    Except Fault (LoopStep HuffState Empty) := do
  match ← matchLength data 15 (matchSym &&& 0xF) s.cpos with
  | none => pure (.leave s)
  | some (length, cpos) => do
      let s := { s with cpos }
      let length ← addW 64 length 3
      if s.out.length < offset ∨ offset = 0 then pure (.leave s)
      else do
        let out ← copyMatch limit offset (fun i => i % offset) length s.out
        pure (.next { s with out })

def huffMatch (data : List UInt8) (limit matchSym : Nat) (s : HuffState) :
    Except Fault (LoopStep HuffState Empty) := do
  let offsetLog := matchSym >>> 4
  if offsetLog = 0 then pure (.leave s)
  else do
    let extraOffsetBits ← subW offsetLog 1
    let s ← refillBelow data extraOffsetBits s
    let (offset, s) ← huffOffset extraOffsetBits s
    huffCopy data limit matchSym offset s

def huffSymbol (table : DecodeTable) (data : List UInt8) (limit : Nat) (s : HuffState) :
    Except Fault (LoopStep HuffState Empty) := do
  let entry := table (s.bitBuf &&& 0x7FFF)
  let sym := entry &&& 0x1FF
  let nbits := entry >>> 9
  if nbits = 0 then pure (.leave s)
  else do
    let bitBuf ← shrW 32 s.bitBuf nbits
    let bitsLeft ← subW s.bitsLeft nbits
    let s := { s with bitBuf, bitsLeft }
    if sym < 256 then do
      let out ← push s.out (UInt8.ofNat sym)
      pure (.next { s with out })
    else huffMatch data limit (sym - 256) s

def huffTurn (table : DecodeTable) (data : List UInt8) (limit : Nat) (s : HuffState) :
    Except Fault (LoopStep HuffState Empty) :=
  if s.bitsLeft < 15 then do
    let s ← refill data s
    if s.bitsLeft = 0 then pure (.leave s) else huffSymbol table data limit s
  else huffSymbol table data limit s

/-! ### The blocks -/

structure HuffBlock where
  table : DecodeTable
  data : List UInt8
  limit : Nat
  chunkEnd : Nat

/-- The preparation of the block at the cursor, `none` where the source leaves its loop. -/
def huffBlock (input : List UInt8) (maxOutput : Nat) (s : Cursor) :
    Except Fault (Option HuffBlock) := do
  let tableEnd ← addW 64 s.pos 256
  if input.length < tableEnd then pure none
  else do
    let tableData ← getSlice input s.pos tableEnd
    let table ← buildTable (huffLens tableData)
    let full ← addW 64 tableEnd 65536
    let chunkEnd := min full input.length
    let data ← getSlice input tableEnd chunkEnd
    let room ← addW 64 s.out.length 65536
    if data.isEmpty then pure none
    else pure (some { table, data, limit := min room maxOutput, chunkEnd })

def HuffBlock.more (block : HuffBlock) (s : HuffState) : Bool :=
  decide (s.out.length < block.limit)

def HuffBlock.turn (block : HuffBlock) : HuffState → Except Fault (LoopStep HuffState Empty) :=
  huffTurn block.table block.data block.limit

def HuffBlock.start (block : HuffBlock) (out : List UInt8) : Except Fault HuffState :=
  refill block.data { out, bitBuf := 0, bitsLeft := 0, cpos := 0 }

def huffDecodeBlock (input : List UInt8) (maxOutput : Nat) (s : Cursor) :
    Except Fault (LoopStep Cursor Empty) := do
  match ← huffBlock input maxOutput s with
  | none => pure (.leave s)
  | some block => do
      let t ← block.start s.out
      let result ← whileLoop .outOfFuel block.more block.turn (block.limit + 1) t
      let t := result.elim id Empty.elim
      pure (.next { pos := block.chunkEnd, out := t.out })

def huffMore (input : List UInt8) (maxOutput : Nat) (s : Cursor) : Bool :=
  decide (s.pos < input.length) && decide (s.out.length < maxOutput)

def huffStart : Cursor := { pos := 0, out := [] }

def xpressHuffDecompress (input : List UInt8) (maxOutput : Nat) :
    Except Fault (Option (List UInt8)) := do
  let result ← whileLoop .outOfFuel (huffMore input maxOutput) (huffDecodeBlock input maxOutput)
    (input.length + 1) huffStart
  let s := result.elim id Empty.elim
  if s.out.isEmpty then pure none else pure (some s.out)

end Mwemu.Decompress
