import Mwemu.Maps.Writes

/-!
# Runs of the memory map manager

The operations that change the layout and the lookups, as steps of a machine, and what holds in
every state of a run from the empty store: the store is well formed exactly as long as every
creation is admitted, lookups then answer as a search without the lookup buffer would, and changes
to executable memory are in the log unless a region is freed by name or cut in part.
-/

namespace Mwemu.Maps

open Mwemu.Lib Option

variable {m m' : Maps}

inductive Op where
  | createMap (name : String) (base size : Nat) (permission : Permission)
  | map (name : String) (sz : Nat) (permission : Permission)
  | mapLib (name : String) (sz : Nat) (permission : Permission)
  | free (name : String)
  | dealloc (addr : Nat)
  | unmapRange (addr len : Nat)
  | getMemByAddr (addr : Nat)
  | getMemByAddrMut (addr : Nat)

def Op.step (m : Maps) : Op → Option Maps
  | createMap name base size permission => some (m.createMap name base size permission).1
  | map name sz permission => some (m.map name sz permission).1
  | mapLib name sz permission => some (m.mapLib name sz permission).1
  | free name => some (m.free name)
  | dealloc addr => some (m.dealloc addr)
  | unmapRange addr len => m.unmapRange addr len
  | getMemByAddr addr => some (m.getMemByAddr addr).2
  | getMemByAddrMut addr => some (m.getMemByAddrMut addr).2

/-- The name, base and size of the region an operation asks `create_map` for. -/
def Op.creates (m : Maps) : Op → Option (String × Nat × Nat)
  | createMap name base size _ => some (name, base, size)
  | map name sz _ => (m.alloc sz).map fun addr => (name, addr, sz)
  | mapLib name sz _ => (m.libAlloc sz).map fun addr => (name, addr, sz)
  | _ => none

/-- The end of a new region is a 64-bit address. -/
def Op.InRange (m : Maps) (op : Op) : Prop :=
  ∀ name base size, op.creates m = some (name, base, size) → base + size ≤ u64Max

def Op.Admitted (m : Maps) (op : Op) : Prop :=
  ∀ name base size, op.creates m = some (name, base, size) → m.Admits name base size

theorem forall_creates_iff (m : Maps) (op : Op) (p : String → Nat → Nat → Prop) :
    (∀ name base size, op.creates m = some (name, base, size) → p name base size) ↔
      ∀ new ∈ op.creates m, p new.1 new.2.1 new.2.2 :=
  ⟨fun hall _ hnew => hall _ _ _ hnew, fun hall _ _ _ hnew => hall _ hnew⟩

instance (m : Maps) (op : Op) : Decidable (op.InRange m) :=
  decidable_of_iff _ (forall_creates_iff m op fun _ base size => base + size ≤ u64Max).symm

instance (m : Maps) (op : Op) : Decidable (op.Admitted m) :=
  decidable_of_iff _ (forall_creates_iff m op fun name base size => m.Admits name base size).symm

/-- The operation neither frees an executable region by name nor cuts one in part. -/
def Op.SparesCode (m : Maps) : Op → Prop
  | free name => ∀ key r, m.nameMap name = some key → m.memSlab.get key = some r →
      r.canExecute = false
  | unmapRange addr len => ∀ key r, m.memSlab.get key = some r → r.baseAddr < addr + len →
      addr < r.bottomAddr → Maps.SparesCode addr (addr + len) r
  | _ => True

instance (addr stop : Nat) (r : Mem64) : Decidable (SparesCode addr stop r) :=
  inferInstanceAs (Decidable (_ → _))

instance (m : Maps) : (op : Op) → Decidable (op.SparesCode m)
  | .free name => decidable_of_iff (∀ key ∈ m.nameMap name, ∀ r ∈ m.memSlab.get key,
      r.canExecute = false)
      ⟨fun hall key r hkey => hall key hkey r, fun hall key hkey r => hall key r hkey⟩
  | .unmapRange addr len => decidable_of_iff (∀ e ∈ m.memSlab.entries,
      e.2.baseAddr < addr + len → addr < e.2.bottomAddr → SparesCode addr (addr + len) e.2)
      ⟨fun hall key r hget => hall (key, r) ((m.memSlab.mem_entries).mpr hget),
        fun hall e he => hall e.1 e.2 ((m.memSlab.mem_entries).mp he)⟩
  | .createMap .. | .map .. | .mapLib .. | .dealloc .. | .getMemByAddr .. | .getMemByAddrMut .. =>
    .isTrue trivial

variable {op : Op}

theorem Op.step_creates {name : String} {base size : Nat}
    (hcreates : op.creates m = some (name, base, size)) :
    ∃ permission, op.step m = some (m.createMap name base size permission).1 := by
  have hplaced : ∀ {found : Option Nat} {name' : String} {sz : Nat} {permission : Permission},
      (found.map fun addr => (name', addr, sz)) = some (name, base, size) →
        (m.mapAt found name' sz permission).1 = (m.createMap name base size permission).1 := by
    intro found name' sz permission hfound
    rw [map_eq_some_iff] at hfound
    obtain ⟨addr, rfl, heq⟩ := hfound
    cases heq
    exact mapAt_fst m _ _ _ _
  cases op with
  | createMap name' base' size' permission =>
    cases hcreates
    exact ⟨permission, rfl⟩
  | map name' sz permission => exact ⟨permission, congrArg some (hplaced hcreates)⟩
  | mapLib name' sz permission => exact ⟨permission, congrArg some (hplaced hcreates)⟩
  | free name' => cases hcreates
  | dealloc addr => cases hcreates
  | unmapRange addr len => cases hcreates
  | getMemByAddr addr => cases hcreates
  | getMemByAddrMut addr => cases hcreates

theorem Wf.step_of_creates_none (hwf : m.Wf) (hcreates : op.creates m = none) :
    ∃ m', op.step m = some m' ∧ m'.Wf ∧ (op.SparesCode m → Logged m m') := by
  cases op with
  | createMap name base size permission => cases hcreates
  | map name sz permission =>
    have halloc : m.alloc sz = none := map_eq_none_iff.mp hcreates
    refine ⟨m, ?_, hwf, fun _ => Logged.refl m⟩
    simp only [Op.step, Maps.map, halloc, mapAt]
  | mapLib name sz permission =>
    have halloc : m.libAlloc sz = none := map_eq_none_iff.mp hcreates
    refine ⟨m, ?_, hwf, fun _ => Logged.refl m⟩
    simp only [Op.step, Maps.mapLib, halloc, mapAt]
  | free name => exact ⟨_, rfl, hwf.free name⟩
  | dealloc addr =>
    obtain ⟨hwf', hlogged⟩ := hwf.dealloc addr
    exact ⟨_, rfl, hwf', fun _ => hlogged⟩
  | unmapRange addr len => exact hwf.unmapRange addr len
  | getMemByAddr addr =>
    obtain ⟨tlb, htlb⟩ := m.getMemByAddr_snd addr
    refine ⟨_, rfl, ?_⟩
    rw [htlb]
    exact ⟨hwf.congr rfl rfl rfl, fun _ => Logged.of_eq rfl rfl rfl⟩
  | getMemByAddrMut addr =>
    obtain ⟨tlb, htlb⟩ := m.getMemByAddrMut_snd addr
    refine ⟨_, rfl, ?_⟩
    rw [htlb]
    exact ⟨hwf.congr rfl rfl rfl, fun _ => Logged.of_eq rfl rfl rfl⟩

theorem Wf.step (hwf : m.Wf) (hrange : op.InRange m) (hadmitted : op.Admitted m) :
    ∃ m', op.step m = some m' ∧ m'.Wf ∧ (op.SparesCode m → Logged m m') := by
  cases hcreates : op.creates m with
  | none => exact hwf.step_of_creates_none hcreates
  | some region =>
    obtain ⟨name, base, size⟩ := region
    obtain ⟨permission, hstep⟩ := Op.step_creates hcreates
    have hcreated := hwf.createMap permission (hrange _ _ _ hcreates) (hadmitted _ _ _ hcreates)
    exact ⟨_, hstep, hcreated.wf, fun _ => hcreated.logged⟩

theorem Wf.step_wf_iff (hwf : m.Wf) (hrange : op.InRange m) :
    (∃ m', op.step m = some m' ∧ m'.Wf) ↔ op.Admitted m := by
  constructor
  · rintro ⟨m', hstep, hwf'⟩ name base size hcreates
    obtain ⟨permission, hstep'⟩ := Op.step_creates hcreates
    obtain rfl := Option.some.inj (hstep.symm.trans hstep')
    exact (hwf.createMap_wf_iff permission (hrange _ _ _ hcreates)).mp hwf'
  · intro hadmitted
    obtain ⟨m', hstep, hwf', -⟩ := hwf.step hrange hadmitted
    exact ⟨m', hstep, hwf'⟩

/-! ### Well-formedness -/

/-- A run from the empty store stays well formed exactly when every creation is admitted. -/
theorem run_wf_iff_admitted (ops : List Op) (hrange : Along Op.step Op.InRange default ops) :
    (∀ n, ∃ m, run Op.step default (ops.take n) = some m ∧ m.Wf ∧ m.memTest = true) ↔
      Along Op.step Op.Admitted default ops := by
  have hiff := run_invariant_iff Wf
    (fun m op hwf (hrange : op.InRange m) => hwf.step_wf_iff hrange) wf_default hrange
  rw [← hiff]
  refine forall_congr' fun n => exists_congr fun m => and_congr_right fun _ => ?_
  exact and_iff_left_of_imp Wf.memTest

theorem wf_of_run {ops : List Op}
    (hops : Along Op.step (fun m op => op.InRange m ∧ op.Admitted m) default ops)
    (hrun : run Op.step default ops = some m) : m.Wf := by
  refine run_preserves Wf (fun m op m' hwf hop hstep => ?_) wf_default hops hrun
  obtain ⟨m'', hstep', hwf', -⟩ := hwf.step hop.1 hop.2
  rw [hstep] at hstep'
  cases hstep'
  exact hwf'

def readWrite : Permission := { read := true, write := true, execute := false }

def adjacent : List Op := [.createMap "a" 2 1 readWrite, .createMap "b" 1 1 readWrite]

theorem adjacent_inRange : Along Op.step Op.InRange default adjacent := by
  refine ⟨?_, fun m _ => ⟨?_, fun _ _ => trivial⟩⟩ <;>
    · rintro _ _ _ ⟨⟩
      decide

theorem run_wf_iff_adjacent : Along Op.step Op.InRange default adjacent ∧
      ((∀ n, ∃ m, run Op.step default (adjacent.take n) = some m ∧ m.Wf ∧ m.memTest = true) ↔
        Along Op.step Op.Admitted default adjacent) :=
  ⟨adjacent_inRange, run_wf_iff_admitted adjacent adjacent_inRange⟩

/-- `create_map` accepts a range whose first byte is free and whose second is taken. -/
theorem createMap_overlapping :
    ((run Op.step default [.createMap "a" 2 1 readWrite, .createMap "b" 1 2 readWrite]).map
      memTest) = some false := by
  decide +kernel

/-! ### Lookups -/

/-- Whatever the lookup buffer holds, both lookups return the region that contains the address, and
so they answer as the search does in every state of an admitted run. -/
theorem lookups_exact (m : Maps) (hwf : m.Wf) (tlb : Tlb) (ops : List Op)
    (hops : Along Op.step (fun m op => Op.InRange m op ∧ Op.Admitted m op) default ops) :
    (∀ (addr key : Nat) (r : Mem64),
      ((getMemByAddr { m with tlb := tlb } addr).1 = some (key, r) ↔
        m.memSlab.get key = some r ∧ r.inside addr = true) ∧
      ((getMemByAddrMut { m with tlb := tlb } addr).1 = some (key, r) ↔
        m.memSlab.get key = some r ∧ r.inside addr = true)) ∧
    ∃ m', run Op.step default ops = some m' ∧ ∀ addr,
      (m'.getMemByAddr addr).1 = m'.searchMaps addr ∧
        (m'.getMemByAddrMut addr).1 = m'.searchMaps addr := by
  refine ⟨fun addr key r => ?_, ?_⟩
  · have hwf' : Wf { m with tlb := tlb } := hwf.congr rfl rfl rfl
    rw [hwf'.getMemByAddr_fst, hwf'.getMemByAddrMut_fst, hwf'.searchMaps_eq_some]
    exact ⟨Iff.rfl, Iff.rfl⟩
  · obtain ⟨m', hrun, hwf'⟩ := run_invariant Wf (fun m op hwf hop => by
      obtain ⟨m', hstep, hwf', -⟩ := hwf.step hop.1 hop.2
      exact ⟨m', hstep, hwf'⟩) wf_default hops
    exact ⟨m', hrun, fun addr => ⟨hwf'.getMemByAddr_fst addr, hwf'.getMemByAddrMut_fst addr⟩⟩

/-- "b" takes over the slab key of "x", which the buffer entry of the page still names. -/
def recycled : List Op :=
  [.createMap "x" 16 4 readWrite, .createMap "a" 32 4 readWrite, .getMemByAddr 17, .free "x",
    .createMap "b" 48 4 readWrite]

/-- The first lookup is served by the buffer, the second one finds "b" there and searches. -/
theorem lookups_exact_recycled : ∃ m, run Op.step default recycled = some m ∧
      (m.tlb (Tlb.indexOfAddr 50)).mem64 = 0 ∧
      (m.getMemByAddr 50).1.map (fun found => (found.1, found.2.memName)) = some (0, "b") ∧
      (m.getMemByAddrMut 34).1.map (fun found => (found.1, found.2.memName)) = some (1, "a") ∧
      (∀ key r, (getMemByAddr { m with tlb := fun _ => ⟨0, 1⟩ } 50).1 = some (key, r) ↔
        m.memSlab.get key = some r ∧ r.inside 50 = true) ∧
      ∀ addr, (m.getMemByAddr addr).1 = m.searchMaps addr ∧
        (m.getMemByAddrMut addr).1 = m.searchMaps addr := by
  have hops : Along Op.step (fun m op => Op.InRange m op ∧ Op.Admitted m op) default recycled := by
    decide +kernel
  have hreached : (run Op.step default recycled).any (fun m =>
      (m.tlb (Tlb.indexOfAddr 50)).mem64 = 0 ∧
        (m.getMemByAddr 50).1.map (fun found => (found.1, found.2.memName)) = some (0, "b") ∧
        (m.getMemByAddrMut 34).1.map (fun found => (found.1, found.2.memName)) =
          some (1, "a")) = true := by
    decide +kernel
  obtain ⟨m, hrun, hfound⟩ := (any_eq_true _ _).mp hreached
  obtain ⟨hbuffer, hserved, hsearched⟩ := of_decide_eq_true hfound
  obtain ⟨hexact, m', hrun', hsearch⟩ :=
    lookups_exact m (wf_of_run hops hrun) (fun _ => ⟨0, 1⟩) recycled hops
  obtain rfl := Option.some.inj (hrun.symm.trans hrun')
  exact ⟨m, hrun, hbuffer, hserved, hsearched, fun key r => (hexact 50 key r).1, hsearch⟩

/-- After an overlapping creation the buffer and the search disagree: the new region has taken the
slab key that the buffer entry of the page still names. -/
theorem lookup_overlapping_recycled :
    (run Op.step default [.createMap "x" 16 1 readWrite, .createMap "a" 2 1 readWrite, .free "x",
      .createMap "b" 1 2 readWrite]).map (fun m =>
        ((m.getMemByAddr 2).1.map fun found => found.2.memName,
          (m.searchMaps 2).map fun found => found.2.memName)) = some (some "b", some "a") := by
  decide +kernel

/-! ### The code-write log -/

/-- The operations on the bytes, with those on the layout. -/
inductive CodeOp where
  | layout (op : Op)
  | writeScalar (size addr value : Nat)
  | writeBytes (addr : Nat) (data : List UInt8)
  | memset (addr : Nat) (b : UInt8) (amount : Nat)
  | memcpy (dst src size : Nat)
  | noteCodeWrite (addr len : Nat)

def CodeOp.step (m : Maps) : CodeOp → Option Maps
  | layout op => op.step m
  | writeScalar size addr value => (m.writeScalar size addr value).map Prod.snd
  | writeBytes addr data => (m.writeBytes addr data).map Prod.snd
  | memset addr b amount => m.memset addr b amount
  | memcpy dst src size => (m.memcpy dst src size).map Prod.snd
  | noteCodeWrite addr len => some (m.noteCodeWrite addr len)

/-- Layout operations are admitted and spare the executable regions. -/
def CodeOp.Careful (m : Maps) : CodeOp → Prop
  | layout op => op.InRange m ∧ op.Admitted m ∧ op.SparesCode m
  | _ => True

instance (m : Maps) : (op : CodeOp) → Decidable (op.Careful m)
  | .layout _ => inferInstanceAs (Decidable (_ ∧ _ ∧ _))
  | .writeScalar .. | .writeBytes .. | .memset .. | .memcpy .. | .noteCodeWrite .. =>
    .isTrue trivial

theorem Wf.codeStep (hwf : m.Wf) {op : CodeOp} (hcareful : op.Careful m)
    (hstep : op.step m = some m') : m'.Wf ∧ Logged m m' := by
  cases op with
  | layout op =>
    obtain ⟨hrange, hadmitted, hspares⟩ := hcareful
    obtain ⟨m₁, hstep', hwf', hlogged⟩ := hwf.step hrange hadmitted
    obtain rfl := Option.some.inj (hstep'.symm.trans hstep)
    exact ⟨hwf', hlogged hspares⟩
  | writeScalar size addr value =>
    obtain ⟨⟨ok, m₁⟩, hwrite, rfl⟩ := map_eq_some_iff.mp hstep
    exact hwf.writeScalar hwrite
  | writeBytes addr data =>
    obtain ⟨⟨ok, m₁⟩, hwrite, rfl⟩ := map_eq_some_iff.mp hstep
    exact hwf.writeBytes hwrite
  | memset addr b amount => exact hwf.memset hstep
  | memcpy dst src size =>
    obtain ⟨⟨ok, m₁⟩, hwrite, rfl⟩ := map_eq_some_iff.mp hstep
    exact hwf.memcpy hwrite
  | noteCodeWrite addr len =>
    cases hstep
    obtain ⟨log, hlog⟩ := m.noteCodeWrite_eq addr len
    refine ⟨?_, Logged.noteCodeWrite m addr len⟩
    rw [hlog]
    exact hwf.congr rfl rfl rfl

/-- A careful run leaves every executable address it changed in the log for the next drain, or the
entry that stands for all addresses; what was in the log before does not matter. -/
theorem run_careful_logged (m : Maps) (hwf : m.Wf) (ops : List CodeOp)
    (hcareful : Along CodeOp.step CodeOp.Careful m ops) (m' : Maps)
    (hrun : run CodeOp.step m ops = some m') (x : Nat)
    (hexec : m.executableAt x = true ∨ m'.executableAt x = true)
    (hdiffers : m.byteAt x ≠ m'.byteAt x) : ∃ entry ∈ m'.drainCodeWrites.1,
      entry.1 ≤ x ∧ x < entry.1 + entry.2 ∨ entry = (0, u64Max) := by
  obtain ⟨hwf', hlogged⟩ := run_related Wf (R := Logged) Logged.refl Logged.trans
    (fun m op m' hwf hop hstep => hwf.codeStep hop hstep) hwf hcareful hrun
  exact hlogged.covers x (hwf.codeAt_ne hwf' hexec hdiffers)

def writableCode : Permission := { read := true, write := true, execute := true }

def codeAndData : List Op :=
  [.createMap "code" 0 8 writableCode, .createMap "data" 16 4 readWrite]

/-- Code is patched and data unmapped, after a drain. -/
def patchCode : List CodeOp := [.writeBytes 2 [7, 8], .layout (.unmapRange 17 2)]

theorem run_careful_logged_patchCode : ∃ m m', run Op.step default codeAndData = some m ∧
      run CodeOp.step m.drainCodeWrites.2 patchCode = some m' ∧
      m.byteAt 2 = some 0 ∧ m'.byteAt 2 = some 7 ∧ m.byteAt 17 = some 0 ∧ m'.byteAt 17 = none ∧
      ∃ entry ∈ m'.drainCodeWrites.1,
        entry.1 ≤ 2 ∧ 2 < entry.1 + entry.2 ∨ entry = (0, u64Max) := by
  have hops : Along Op.step (fun m op => op.InRange m ∧ op.Admitted m) default codeAndData := by
    decide +kernel
  have hreached : (run Op.step default codeAndData).any (fun m =>
      Along CodeOp.step CodeOp.Careful m.drainCodeWrites.2 patchCode ∧
        (run CodeOp.step m.drainCodeWrites.2 patchCode).any (fun m' =>
          m'.executableAt 2 = true ∧ m.byteAt 2 = some 0 ∧ m'.byteAt 2 = some 7 ∧
            m.byteAt 17 = some 0 ∧ m'.byteAt 17 = none) = true) = true := by
    decide +kernel
  obtain ⟨m, hrun, hpatched⟩ := (any_eq_true _ _).mp hreached
  obtain ⟨hcareful, hany⟩ := of_decide_eq_true hpatched
  obtain ⟨m', hrun', hbytes⟩ := (any_eq_true _ _).mp hany
  obtain ⟨hexec, hold, hnew, hdata, hunmapped⟩ := of_decide_eq_true hbytes
  have hwf : m.drainCodeWrites.2.Wf := (wf_of_run hops hrun).congr rfl rfl rfl
  refine ⟨m, m', hrun, hrun', hold, hnew, hdata, hunmapped,
    run_careful_logged _ hwf patchCode hcareful m' hrun' 2 (.inr hexec) ?_⟩
  rw [show m.drainCodeWrites.2.byteAt 2 = some 0 from hold, hnew]
  decide

def readExecute : Permission := { read := true, write := false, execute := true }

def drainedCode : Maps := (default.createMap "code" 0 3 readExecute).1.drainCodeWrites.2

/-- Freeing the region by name and cutting its middle byte both unmap executable address 1, and
neither logs it. -/
theorem removed_code_unlogged : drainedCode.executableAt 1 = true ∧ drainedCode.byteAt 1 = some 0 ∧
    (run CodeOp.step drainedCode [.layout (.free "code")]).map
      (fun m => (m.byteAt 1, m.drainCodeWrites.1)) = some (none, []) ∧
    (run CodeOp.step drainedCode [.layout (.unmapRange 1 1)]).map
      (fun m => (m.byteAt 1, m.drainCodeWrites.1)) = some (none, [(2, 1)]) := by
  decide +kernel

end Mwemu.Maps
