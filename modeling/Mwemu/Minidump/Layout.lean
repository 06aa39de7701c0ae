import Mwemu.Lib.Mask
import Mwemu.Minidump.Writer

/-!
# Streams and tables in a minidump

A stream that was written stands at its offset, behind the streams before it; the padding lets the
writing go on exactly if that offset is the true one, below 4 GiB. The entries of a table stand at
multiples of their size, and each carries the offset of its part of the trailing data, modulo
2 ^ 32.
-/

namespace Mwemu.Minidump

open Mwemu.Lib List

/-! ### Numbers in a file -/

def u32At (file : List UInt8) (off : Nat) : Nat :=
  leValue ((file.drop off).take 4)

def u64At (file : List UInt8) (off : Nat) : Nat :=
  leValue ((file.drop off).take 8)

variable {file rest : List UInt8} {off value : Nat}

theorem u32At_eq (hat : At file off (leBytes 4 value)) : u32At file off = value % 2 ^ 32 := by
  have htake := hat.take_drop
  rw [length_leBytes] at htake
  have hpow : 256 ^ 4 = 2 ^ 32 := by decide
  rw [u32At, htake, leValue_leBytes, hpow]

theorem u64At_eq (hat : At file off (leBytes 8 value)) : u64At file off = value % 2 ^ 64 := by
  have htake := hat.take_drop
  rw [length_leBytes] at htake
  have hpow : 256 ^ 8 = 2 ^ 64 := by decide
  rw [u64At, htake, leValue_leBytes, hpow]

theorem u32At_of_lt (hat : At file off (leBytes 4 value)) (hvalue : value < 2 ^ 32) :
    u32At file off = value :=
  (u32At_eq hat).trans (Nat.mod_eq_of_lt hvalue)

/-! ### 32-bit offsets -/

theorem add32_lt (a b : Nat) : add32 a b < 2 ^ 32 :=
  Nat.mod_lt _ (by decide)

def up4 (n : Nat) : Nat :=
  (n + 3) / 4 * 4

theorem align4_lt (value : Nat) : align4 value < 2 ^ 32 :=
  Nat.lt_of_le_of_lt Nat.and_le_left (Nat.mod_lt _ (by decide))

theorem align4_eq (hvalue : value < 2 ^ 32) :
    align4 value = if value + 3 < 2 ^ 32 then up4 value else 0 := by
  have hmask : 0xfffffffc = 2 ^ 32 - 2 ^ 2 := by decide
  unfold align4 up4
  rw [hmask, and_two_pow_sub_two_pow (by decide) (Nat.mod_lt _ (by decide))]
  split <;> omega

/-! ### Streams in the file -/

namespace StreamLayout

variable {s : StreamLayout}

def stop (s : StreamLayout) : Nat :=
  s.rva + s.data.length + s.trailingData.length

theorem nextRva_eq (s : StreamLayout) : s.nextRva = align4 (s.stop % 2 ^ 32) := by
  unfold nextRva add32 stop
  congr 1
  omega

theorem nextRva_lt (s : StreamLayout) : s.nextRva < 2 ^ 32 :=
  align4_lt _

theorem stop_le_nextRva_iff (hstop : 0 < s.stop) : s.stop ≤ s.nextRva ↔ up4 s.stop < 2 ^ 32 := by
  have hlt := s.nextRva_lt
  have hup : s.stop ≤ up4 s.stop := by
    unfold up4
    omega
  by_cases hwrap : s.stop < 2 ^ 32
  · rw [nextRva_eq, Nat.mod_eq_of_lt hwrap, align4_eq hwrap]
    unfold up4
    split <;> omega
  · omega

theorem nextRva_of_lt (hup : up4 s.stop < 2 ^ 32) : s.nextRva = up4 s.stop := by
  have hle : s.stop + 3 < 2 ^ 32 := by
    unfold up4 at hup
    omega
  rw [nextRva_eq, Nat.mod_eq_of_lt (by omega), align4_eq (by omega), if_pos hle]

structure Written (s : StreamLayout) (file : List UInt8) : Prop where
  at_rva : At file s.rva (s.data ++ s.trailingData)
  stop_le : s.stop ≤ file.length

theorem Written.mono {file' : List UInt8} (hwritten : s.Written file) (hfile : file <+: file') :
    s.Written file' := by
  have hstop := hwritten.stop_le
  have hlen := hfile.length_le
  unfold stop at hstop
  exact ⟨hwritten.at_rva.mono (by omega) hfile, hwritten.stop_le.trans hlen⟩

end StreamLayout

variable {output : List UInt8} {streams : List StreamLayout}

theorem appendStream_ok {out : List UInt8} {s : StreamLayout}
    (happend : appendStream output s = .ok out) :
    output.length ≤ s.rva ∧ output <+: out ∧ s.Written out ∧ out.length = s.stop := by
  unfold appendStream at happend
  split at happend
  · cases happend
  · next hle =>
    cases happend
    have hlen : (output ++ (List.replicate (s.rva - output.length) 0 ++
        (s.data ++ s.trailingData))).length = s.stop := by
      simp only [length_append, length_replicate, StreamLayout.stop]
      omega
    refine ⟨by omega, prefix_append _ _, ⟨?_, hlen.ge⟩, hlen⟩
    have hat := at_length (output ++ List.replicate (s.rva - output.length) (0 : UInt8))
      (s.data ++ s.trailingData) []
    rw [append_nil, append_assoc, length_append, length_replicate,
      Nat.add_sub_cancel' (by omega)] at hat
    exact hat

theorem written_of_foldlM
    (hfold : streams.foldlM appendStream output = .ok file) :
    output <+: file ∧ (∀ s ∈ streams, output.length ≤ s.rva ∧ s.Written file) ∧
      streams.Pairwise fun s t => s.stop ≤ t.rva := by
  induction streams generalizing output with
  | nil =>
    cases hfold
    exact ⟨prefix_rfl, nofun, .nil⟩
  | cons s streams ih =>
    rw [foldlM_cons] at hfold
    cases happend : appendStream output s with
    | error e =>
      rw [happend] at hfold
      cases hfold
    | ok out =>
      rw [happend] at hfold
      obtain ⟨hrva, hout, hwritten, hlen⟩ := appendStream_ok happend
      obtain ⟨hfile, hstreams, hpairwise⟩ := ih hfold
      refine ⟨hout.trans hfile, fun t ht => ?_, pairwise_cons.mpr ⟨fun t ht => ?_, hpairwise⟩⟩
      · rcases mem_cons.mp ht with rfl | ht
        · exact ⟨hrva, hwritten.mono hfile⟩
        · have hle := hout.length_le
          exact ⟨hle.trans (hstreams t ht).1, (hstreams t ht).2⟩
      · rw [← hlen]
        exact (hstreams t ht).1

theorem exists_foldlM
    (hchain : streams.Pairwise fun s t => s.stop ≤ t.rva)
    (hfirst : ∀ s ∈ streams, output.length ≤ s.rva) :
    ∃ file, streams.foldlM appendStream output = .ok file := by
  induction streams generalizing output with
  | nil => exact ⟨output, rfl⟩
  | cons s streams ih =>
    obtain ⟨hhead, htail⟩ := pairwise_cons.mp hchain
    obtain ⟨out, happend⟩ : ∃ out, appendStream output s = .ok out := by
      have hle := hfirst s mem_cons_self
      exact ⟨_, if_neg (by omega)⟩
    obtain ⟨-, -, -, hlen⟩ := appendStream_ok happend
    obtain ⟨file, hfold⟩ := ih htail fun t ht => hlen ▸ hhead t ht
    refine ⟨file, ?_⟩
    rw [foldlM_cons, happend]
    exact hfold

/-! ### Elements and their offsets -/

section Placed

variable {β : Type} {size : β → Nat} {xs : List β} {rva i : Nat}

theorem length_placed (size : β → Nat) (rva : Nat) (xs : List β) :
    (placed size rva xs).length = xs.length := by
  induction xs generalizing rva with
  | nil => rfl
  | cons x xs ih => rw [placed, length_cons, ih, length_cons]

theorem getElem?_placed (hrva : rva < 2 ^ 32) : (placed size rva xs)[i]? =
      xs[i]?.map fun x => (x, (rva + ((xs.take i).map size).sum) % 2 ^ 32) := by
  induction xs generalizing rva i with
  | nil => rfl
  | cons x xs ih =>
    rw [placed]
    cases i with
    | zero =>
      rw [List.getElem?_cons_zero, List.getElem?_cons_zero, Option.map_some, take_zero,
        map_nil, sum_nil, Nat.add_zero, Nat.mod_eq_of_lt hrva]
    | succ i =>
      have hsum : ∀ n, (add32 rva (size x) + n) % 2 ^ 32 = (rva + (size x + n)) % 2 ^ 32 := by
        intro n
        unfold add32
        omega
      rw [List.getElem?_cons_succ, List.getElem?_cons_succ, take_succ_cons, map_cons,
        sum_cons, ih (add32_lt _ _), hsum]

end Placed

/-- A table of entries of one size, each with the offset of its part of the trailing data. -/
structure Table {β : Type} (s : StreamLayout) (xs : List β) (entrySize : Nat)
    (blob : β → List UInt8) (entry : β × Nat → List UInt8) : Prop where
  data : s.data = leBytes 4 xs.length ++ (placed (fun x => (blob x).length)
    (add32 s.rva (add32 4 (xs.length % 2 ^ 32 * entrySize))) xs).flatMap entry
  trailing : s.trailingData = xs.flatMap blob
  size : ∀ x, (entry x).length = entrySize

namespace Table

variable {β : Type} {s : StreamLayout} {xs : List β} {entrySize i : Nat} {blob : β → List UInt8}
  {entry : β × Nat → List UInt8}

section

variable (h : Table s xs entrySize blob entry)
include h

theorem length_data : s.data.length = 4 + entrySize * xs.length := by
  rw [h.data, length_append, length_leBytes, length_flatMap_of_size fun x _ => h.size x,
    length_placed]

def blobOff (s : StreamLayout) (xs : List β) (entrySize : Nat) (blob : β → List UInt8) (i : Nat) :
    Nat :=
  s.rva + (4 + entrySize * xs.length) + ((xs.take i).flatMap blob).length

omit h in
theorem getElem?_placed_blobs (s : StreamLayout) (xs : List β) (entrySize : Nat)
    (blob : β → List UInt8) (i : Nat) : (placed (fun x => (blob x).length)
      (add32 s.rva (add32 4 (xs.length % 2 ^ 32 * entrySize))) xs)[i]? =
      xs[i]?.map fun x => (x, blobOff s xs entrySize blob i % 2 ^ 32) := by
  have hcount := Nat.mod_mul_mod xs.length entrySize (2 ^ 32)
  have hoff : (add32 s.rva (add32 4 (xs.length % 2 ^ 32 * entrySize)) +
      ((xs.take i).map fun x => (blob x).length).sum) % 2 ^ 32 =
      blobOff s xs entrySize blob i % 2 ^ 32 := by
    rw [blobOff, length_flatMap, Nat.mul_comm entrySize]
    unfold add32
    omega
  rw [getElem?_placed (add32_lt _ _), hoff]

theorem at_entry (hwritten : s.Written file)
    (hi : i < xs.length) : At file (s.rva + 4 + entrySize * i)
      (entry (xs[i], blobOff s xs entrySize blob i % 2 ^ 32)) := by
  have hat := hwritten.at_rva.head
  rw [h.data] at hat
  have htable := hat.tail
  rw [length_leBytes] at htable
  have hlen : i < (placed (fun x => (blob x).length)
      (add32 s.rva (add32 4 (xs.length % 2 ^ 32 * entrySize))) xs).length := by
    rwa [length_placed]
  have hentry := htable.flatMap hlen
  have hget := getElem?_placed_blobs s xs entrySize blob i
  rw [List.getElem?_eq_getElem hlen, List.getElem?_eq_getElem hi, Option.map_some,
    Option.some.injEq] at hget
  rwa [length_flatMap_take (fun x _ => h.size x) hlen.le, hget] at hentry

theorem at_blob (hwritten : s.Written file)
    (hi : i < xs.length) : At file (blobOff s xs entrySize blob i) (blob xs[i]) := by
  have hat := hwritten.at_rva.tail
  rw [h.trailing, h.length_data] at hat
  exact hat.flatMap hi

theorem blobOff_add_le (hi : i < xs.length) :
    blobOff s xs entrySize blob i + (blob xs[i]).length ≤ s.stop := by
  have hle := length_flatMap_take_add_le blob hi
  unfold blobOff StreamLayout.stop
  rw [h.length_data, h.trailing]
  omega

end

end Table

end Mwemu.Minidump
