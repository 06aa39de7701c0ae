import Mwemu.Emu.StringOps

/-!
# REP string instructions

A REP instruction runs in one of two ways. The run loop executes one element at a time, through a
state machine in `rep` that counts `rcx` down and tests ZF after a comparison. Where nothing observes
single elements and every access stays in one region, `try_fast_rep_string` performs the whole
instruction with one bulk access.
-/

namespace Mwemu

open Mwemu.Arch

namespace Emu

variable (e : Emu) (ins : Instruction)

/-! ### One element at a time -/

def handleX86RepPreExecution (size : Nat) : Bool × Emu :=
  if ins.isRepStringInstruction then
    let e := if e.rep.isNone then { e with rep := some 0 } else e
    if e.regs.rcx = 0 then (true, { e with rep := none }.advancePcX86 size) else (false, e)
  else (false, e)

def countRep (repCount : BitVec 64) : Emu :=
  if e.regs.rcx = 0 then e
  else
    let rcx := e.regs.rcx - 1
    { e with regs := { e.regs with rcx := rcx }
             rep := if rcx = 0 then none else some (repCount + 1) }

def updateX86RepStateAfterExecution : Emu :=
  match e.rep with
  | none => e
  | some repCount =>
    let e := e.countRep repCount
    match ins.mnemonic with
    | .string .movs _ | .string .stos _ | .string .lods _ => e
    | .string .cmps _ | .string .scas _ =>
      let e := if ins.hasRepePrefix && !e.flags.zf then { e with rep := none } else e
      if ins.hasRepnePrefix && e.flags.zf then { e with rep := none } else e
    | .other => { e with rep := none }

/-- What one pass of the run loop over a REP instruction ends with. -/
inductive Pass where
  | again (e : Emu)
  | done (e : Emu)
  | failed (e : Emu)

def repPass (size : Nat) : Option Pass :=
  let e := { e with pos := e.pos + 1, instructionCount := e.instructionCount + 1 }
  match e.handleX86RepPreExecution ins size with
  | (true, e) => some (.done e)
  | (false, e) =>
    (e.emulateInstruction ins).map fun (emulationOk, e) =>
      let e := e.updateX86RepStateAfterExecution ins
      if !emulationOk then .failed e
      else if e.rep.isNone then .done (e.advancePcX86 size)
      else .again e

/-- The passes until `rip` advances; `none` if one panics or fails, or the fuel runs out. -/
def repLoop (size : Nat) : Nat → Emu → Option Emu
  | 0, _ => none
  | fuel + 1, e =>
    match e.repPass ins size with
    | some (.done e) => some e
    | some (.again e) => repLoop size fuel e
    | _ => none

/-! ### The bulk path -/

def observed : Bool :=
  decide (3 ≤ e.cfg.verbose) || e.cfg.traceMem || e.cfg.traceRegs || e.cfg.traceReg ||
    e.cfg.traceFlags || e.cfg.traceString || e.cfg.inspect || e.cfg.entropy ||
    e.hooks.hookOnPreInstruction || e.hooks.hookOnPostInstruction || e.hooks.hookOnMemoryRead ||
    e.hooks.hookOnMemoryWrite.isSome || !e.bp.memReadAddr.isEmpty || !e.bp.memWriteAddr.isEmpty

/-- A breakpoint, the console or the exit position lies strictly inside the next `count`
positions. -/
def stopsInside (count : Nat) : Bool :=
  let lo := e.pos.toNat
  let hi := min (e.pos.toNat + count) u64Max
  let within (x : BitVec 64) := decide (lo < x.toNat) && decide (x.toNat < hi)
  (decide (e.exp.toNat ≠ u64Max) && within e.exp) ||
    (e.cfg.exitPosition != 0 && within e.cfg.exitPosition) || e.bp.instruction.any within

def regionAllows (addr stop : Nat) (allowed : Mem64 → Bool) : Bool × Emu :=
  let (found, maps) := e.maps.getMemByAddr addr
  (found.any fun entry => entry.2.inside stop && allowed entry.2, { e with maps := maps })

def readBytes (addr sz : Nat) : Option (List UInt8 × Emu) :=
  (e.maps.readBytes addr sz).map fun out => (out.1, { e with maps := out.2 })

def slice (bytes : List UInt8) (off len : Nat) : Option (List UInt8) :=
  if off + len ≤ bytes.length then some ((bytes.drop off).take len) else none

/-- The processed count of a bulk access, `none` if it has to be left to the run loop. -/
abbrev Bulk := Option (Option Nat × Emu)

def bulkStos (width : Width) (count : Nat) : Bulk :=
  let di := e.regs.rdi.toNat
  let total := count * width.bytes
  let (writable, e) := e.regionAllows di (di + (total - 1)) Mem64.canWrite
  if !writable then some (none, e)
  else
    let unit := leBytes width.bytes e.regs.rax.toNat
    let buf := (List.replicate count unit).flatten
    (e.maps.writeBytes di buf).map fun out =>
      (some count, { e with
        maps := out.2
        regs := { e.regs with rdi := e.regs.rdi + BitVec.ofNat 64 total, rcx := 0 } })

def bulkMovs (width : Width) (count : Nat) : Bulk :=
  let di := e.regs.rdi.toNat
  let si := e.regs.rsi.toNat
  let total := count * width.bytes
  -- an overlapping copy propagates the elements it has written
  if di ≤ si + (total - 1) ∧ si ≤ di + (total - 1) then some (none, e)
  else
    let (readable, e) := e.regionAllows si (si + (total - 1)) Mem64.canRead
    let (writable, e) := e.regionAllows di (di + (total - 1)) Mem64.canWrite
    if !readable || !writable then some (none, e)
    else do
      let (src, e) ← e.readBytes si total
      (e.maps.writeBytes di src).map fun out =>
        (some count, { e with
          maps := out.2
          regs := { e.regs with
            rsi := e.regs.rsi + BitVec.ofNat 64 total
            rdi := e.regs.rdi + BitVec.ofNat 64 total
            rcx := 0 } })

/-- The search of SCAS from element `k` on, with `left` more elements behind it: how many elements
are compared, and the last one. -/
def scan (repne : Bool) (acc esz : Nat) (bytes : List UInt8) :
    (left k : Nat) → Option (Nat × Nat)
  | left, k =>
    (slice bytes (k * esz) esz).bind fun element =>
      let elem := leValue element
      let equal := acc == elem
      let stop := if repne then equal else !equal
      match left with
      | 0 => some (k + 1, elem)
      | left + 1 => if stop then some (k + 1, elem) else scan repne acc esz bytes left (k + 1)

def mask (width : Width) : BitVec 64 :=
  if width.bytes = 8 then BitVec.allOnes 64 else (1#64 <<< (width.bytes * 8)) - 1

def setSubFlags (width : Width) (a b : Nat) : Emu :=
  { e with flags := (e.flags.materializeLazy.subWidth width a b).2 }

def bulkScas (width : Width) (count : Nat) : Bulk :=
  let di := e.regs.rdi.toNat
  let total := count * width.bytes
  let (readable, e) := e.regionAllows di (di + (total - 1)) Mem64.canRead
  if !readable then some (none, e)
  else do
    let (bytes, e) ← e.readBytes di total
    let acc := (e.regs.rax &&& mask width).toNat
    (scan ins.hasRepnePrefix acc width.bytes bytes (count - 1) 0).map fun (k, term) =>
      let e := e.setSubFlags width acc term
      (some k, { e with regs := { e.regs with
        rcx := BitVec.ofNat 64 (count - k)
        rdi := e.regs.rdi + BitVec.ofNat 64 (k * width.bytes) } })

def bulkLods (width : Width) (count : Nat) : Bulk :=
  let si := e.regs.rsi.toNat
  let total := count * width.bytes
  let (readable, e) := e.regionAllows si (si + (total - 1)) Mem64.canRead
  if !readable then some (none, e)
  else do
    let (bytes, e) ← e.readBytes si total
    (slice bytes ((count - 1) * width.bytes) width.bytes).map fun last =>
      let regs := e.regs.setAcc width (BitVec.ofNat 64 (leValue last))
      (some count, { e with regs := { regs with
        rsi := regs.rsi + BitVec.ofNat 64 total
        rcx := 0 } })

def bulk (op : StringOp) (width : Width) (count : Nat) : Bulk :=
  match op with
  | .stos => e.bulkStos width count
  | .movs => e.bulkMovs width count
  | .scas => e.bulkScas ins width count
  | .lods => e.bulkLods width count
  | .cmps => some (none, e)

def finishBulk (size processed : Nat) : Emu :=
  { e with
    rep := none
    pos := e.pos + BitVec.ofNat 64 processed
    instructionCount := e.instructionCount + BitVec.ofNat 64 processed
    regs := { e.regs with rip := e.regs.rip + BitVec.ofNat 64 size } }

/-- The tests before the memory is looked at: the direction, the observers, the size of the count,
the stops, and the ends of the two ranges. -/
def refuses (width : Width) : Bool :=
  let count := e.regs.rcx.toNat
  let total := count * width.bytes
  e.flags.fDf || e.observed || decide (count < 16) || e.stopsInside count ||
    decide (2 ^ 64 ≤ total) || decide (2 ^ 64 ≤ e.regs.rdi.toNat + (total - 1)) ||
    decide (2 ^ 64 ≤ e.regs.rsi.toNat + (total - 1))

def tryFastRepString (size : Nat) : Option (Bool × Emu) :=
  match ins.mnemonic with
  | .other => some (false, e)
  | .string op width =>
    if !ins.prefixed || op == .cmps || !e.cfg.isX64 then some (false, e)
    else
      let e := { e with flags := e.flags.materializeLazy }
      if e.refuses width then some (false, e)
      else
        (e.bulk ins op width e.regs.rcx.toNat).map fun
          | (none, e) => (false, e)
          | (some processed, e) => (true, e.finishBulk size processed)

end Emu

end Mwemu
