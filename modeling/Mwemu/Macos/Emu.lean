import Mwemu.Maps.WriteRange
import Mwemu.Threading.Context

/-!
# The emulator as the macOS thread API sees it

The threads with the one that is running, the memory they share, and the words of it that the API
reads and writes. A read is `peek`, which is what `read_qword` and `read_dword` return; they change
nothing but the lookup buffer. A panic is `none`.
-/

namespace Mwemu.Macos

open Mwemu.Lib Mwemu.Threading Mwemu.Maps

structure Emu where
  maps : Maps
  threads : List ThreadContext
  currentThreadId : Nat
  current_lt : currentThreadId < threads.length
  tick : Nat
  enableThreading : Bool
  processTerminated : Bool

namespace Emu

/-! ### Threads -/

def current (e : Emu) : ThreadContext := e.threads.get ⟨e.currentThreadId, e.current_lt⟩

def currentTid (e : Emu) : Nat := e.current.id

def switchTo (e : Emu) (t : Nat) (ht : t < e.threads.length) : Emu :=
  { e with currentThreadId := t, current_lt := ht }

def modifyThread (e : Emu) (i : Nat) (f : ThreadContext → ThreadContext) : Emu :=
  { e with
    threads := e.threads.modify i f
    current_lt := (List.length_modify f e.threads i).symm ▸ e.current_lt }

def withMaps (e : Emu) (m : Maps) : Emu := { e with maps := m }

def setRet (e : Emu) (value : BitVec 64) : Emu :=
  e.modifyThread e.currentThreadId fun t => t.setRet value

theorem getElem?_current (e : Emu) : e.threads[e.currentThreadId]? = some e.current :=
  List.getElem?_eq_getElem e.current_lt

theorem getElem?_modifyThread (e : Emu) (i j : Nat) (f : ThreadContext → ThreadContext) :
    (e.modifyThread i f).threads[j]? = (e.threads[j]?).map fun t => if i = j then f t else t :=
  List.getElem?_modify f i e.threads j

theorem map_modifyThread {α : Type*} {e : Emu} {i : Nat} {g : ThreadContext → α}
    {f : ThreadContext → ThreadContext} (hf : ∀ t, g (f t) = g t) :
    (e.modifyThread i f).threads.map g = e.threads.map g := by
  apply List.ext_getElem?
  intro j
  rw [List.getElem?_map, List.getElem?_map, getElem?_modifyThread, Option.map_map]
  congr 1
  funext t
  simp only [Function.comp_apply]
  split
  · exact hf t
  · rfl

end Emu

def Numbered (threads : List ThreadContext) : Prop :=
  threads.map ThreadContext.id = (List.range threads.length).map (0x1000 + ·)

instance (threads : List ThreadContext) : Decidable (Numbered threads) :=
  inferInstanceAs (Decidable (_ = _))

section Numbered

variable {threads threads' : List ThreadContext} {t : ThreadContext} {i : Nat}

theorem Numbered.id_eq (hids : Numbered threads) (ht : threads[i]? = some t) :
    t.id = 0x1000 + i := by
  have hget := congrArg (fun ids : List Nat => ids[i]?) hids
  simp only [List.getElem?_map, ht, Option.map_some] at hget
  have hlt := (List.getElem?_eq_some_iff.mp ht).1
  rw [List.getElem?_range hlt, Option.map_some] at hget
  exact Option.some.inj hget

theorem Numbered.congr (hids : Numbered threads)
    (hsame : threads'.map ThreadContext.id = threads.map ThreadContext.id) : Numbered threads' := by
  have hlen : threads'.length = threads.length := by
    rw [← List.length_map ThreadContext.id, hsame, List.length_map]
  rw [Numbered, hsame, hlen]
  exact hids

end Numbered

/-! ### Words of memory -/

namespace Emu

def write (e : Emu) (size addr value : Nat) : Option Emu :=
  (e.maps.writeScalar size addr value).map fun r => { e with maps := r.2 }

end Emu

structure HasWord (m : Maps) (size addr : Nat) : Prop where
  read : (m.peek size addr).isSome = true
  write : m.Reaches Mem64.canWrite addr size

variable {size addr : Nat}

theorem hasWord_of_write {m : Maps} (hwf : m.Wf) (hsize : 0 < size)
    (hread : (m.peek size addr).isSome = true)
    (hwrite : (m.writeScalar size addr 0).map Prod.fst = some true) : HasWord m size addr := by
  obtain ⟨ok, m', heq, hok⟩ : ∃ ok m', m.writeScalar size addr 0 = some (ok, m') ∧
      (ok = true ↔ m.Reaches Mem64.canWrite addr size) := hwf.writeScalar_eq hsize 0
  rw [heq] at hwrite
  exact ⟨hread, hok.mp (Option.some.inj hwrite)⟩

/-- The word at `addr` is written and all else in memory is as before. -/
structure Wrote (m m' : Maps) (size addr value : Nat) : Prop where
  wf : m'.Wf
  same : m'.peek size addr = some (value % 256 ^ size)
  apart : ∀ n a, 0 < n → a + n ≤ addr ∨ addr + size ≤ a → (m.peek n a).isSome = true →
    m'.peek n a = m.peek n a
  words : ∀ n a, HasWord m n a → HasWord m' n a

theorem wrote_of_hasWord {m : Maps} (hwf : m.Wf) (hsize : 0 < size) (hword : HasWord m size addr)
    (value : Nat) :
    ∃ m', m.writeScalar size addr value = some (true, m') ∧ Wrote m m' size addr value := by
  obtain ⟨ok, m', hwrite, hok⟩ := hwf.writeScalar_eq hsize value
  obtain rfl : ok = true := hok.mpr hword.write
  have hstores := hwf.writeScalar_stores hsize hwrite
  rw [if_pos rfl] at hstores
  have hlen := length_leBytes size value
  refine ⟨m', hwrite, hstores.wf, hstores.peek_self hsize hword.read, fun n a hn hapart hsome => ?_,
    fun n a hword' => ⟨hstores.peek_isSome hword'.read, ?_⟩⟩
  · obtain ⟨v, hv⟩ := Option.isSome_iff_exists.mp hsome
    rw [hv]
    refine hstores.peek_apart hwf hn ?_ hv
    rw [hlen]
    exact hapart.symm
  · exact ((hstores.touches (n := size) hlen.le).reaches_iff
      (fun r r' hframe => Mem64.canWrite_of_frame hframe) a n).mpr hword'.write

theorem Emu.write_of_hasWord {e : Emu} (hwf : e.maps.Wf) (hsize : 0 < size)
    (hword : HasWord e.maps size addr) (value : Nat) :
    ∃ m', e.write size addr value = some { e with maps := m' } ∧
      Wrote e.maps m' size addr value := by
  obtain ⟨m', hwrite, hwrote⟩ := wrote_of_hasWord hwf hsize hword value
  exact ⟨m', by rw [Emu.write, hwrite]; rfl, hwrote⟩

end Mwemu.Macos
