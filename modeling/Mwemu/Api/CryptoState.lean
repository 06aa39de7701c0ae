import Mathlib.Logic.Equiv.Basic

/-!
# CryptoAPI keys

RC4 and the fallback combine the data with a stream of bytes that depends on the key only, so that a
second pass takes it away again. Both divide by the length of the key, which a guest can set to
nothing.
-/

namespace Mwemu.Api.CryptoState

def calgRc4 : Nat := 0x6801
def calgAes128 : Nat := 0x660e
def calgAes256 : Nat := 0x6610
def calgDes : Nat := 0x6601
def calg3Des : Nat := 0x6603

abbrev Bytes := List UInt8

/-- A cipher for blocks, with its key. -/
abbrev Cipher := Bytes → Bytes → Bytes

structure CryptoKey where
  algId : Nat
  keyData : Bytes

/-- The keys by handle. -/
abbrev CryptoStore := Nat → Option CryptoKey

/-- The block ciphers of the `aes` crate, one for each key. -/
structure Aes where
  encryptBlock : Cipher
  decryptBlock : Cipher
  encrypt_length : ∀ key block, block.length = 16 → (encryptBlock key block).length = 16
  decrypt_length : ∀ key block, block.length = 16 → (decryptBlock key block).length = 16
  decrypt_encrypt : ∀ key block, block.length = 16 →
    decryptBlock key (encryptBlock key block) = block
  encrypt_decrypt : ∀ key block, block.length = 16 →
    encryptBlock key (decryptBlock key block) = block

/-! ### Setting keys -/

def createKey (s : CryptoStore) (handle algId keyLenBits : Nat) : CryptoStore :=
  let keyLen := (keyLenBits + 7) / 8
  let keyLen := if keyLen = 0 then if algId = calgAes256 then 32 else 16 else keyLen
  Function.update s handle (some ⟨algId, (List.range keyLen).map fun i => i.toUInt8 * 0x37⟩)

/-- `digest` is what `get_hash_param` finds. -/
def deriveKeyFromHash (s : CryptoStore) (handle : Nat) (digest : Option Bytes) (algId : Nat) :
    CryptoStore :=
  match digest with
  | none => s
  | some digest =>
    let keyLen :=
      if algId = calgRc4 then min digest.length 256
      else if algId = calgAes128 then 16
      else if algId = calgAes256 then 32
      else if algId = calgDes then 8
      else if algId = calg3Des then 24
      else min digest.length 32
    Function.update s handle (some ⟨algId, (List.range keyLen).map fun i => digest.getD i 0⟩)

def setKeyData (s : CryptoStore) (handle : Nat) (data : Bytes) : CryptoStore :=
  match s handle with
  | none => s
  | some k => Function.update s handle (some { k with keyData := data })

inductive KeyOp where
  | createKey (handle algId keyLenBits : Nat)
  | deriveKeyFromHash (handle : Nat) (digest : Option Bytes) (algId : Nat)
  | setKeyData (handle : Nat) (data : Bytes)

def KeyOp.step (s : CryptoStore) : KeyOp → CryptoStore
  | createKey handle algId keyLenBits => CryptoState.createKey s handle algId keyLenBits
  | deriveKeyFromHash handle digest algId => CryptoState.deriveKeyFromHash s handle digest algId
  | setKeyData handle data => CryptoState.setKeyData s handle data

/-! ### Using keys -/

def swap (s : UInt8 → UInt8) (i j : UInt8) : UInt8 → UInt8 :=
  Function.update (Function.update s i (s j)) j (s i)

def rc4Schedule (key : Bytes) : UInt8 → UInt8 :=
  ((List.range 256).foldl (fun (s, j) i =>
    let j := j + s i.toUInt8 + key.getD (i % key.length) 0
    (swap s i.toUInt8 j, j)) (id, 0)).1

def rc4Stream (s : UInt8 → UInt8) (i j : UInt8) : Bytes → Bytes
  | [] => []
  | byte :: data =>
    let i := i + 1
    let j := j + s i
    let s := swap s i j
    (byte ^^^ s (s i + s j)) :: rc4Stream s i j data

/-- The index is reduced by the length of the key; without one it panics. -/
def rc4Crypt (key data : Bytes) : Option Bytes :=
  if key = [] then none else some (rc4Stream (rc4Schedule key) 0 0 data)

/-- The first `n` blocks are replaced, and the tail stays. -/
def blocks (cipher : Bytes → Bytes) : Nat → Bytes → Bytes
  | 0, data => data
  | n + 1, data => cipher (data.take 16) ++ blocks cipher n (data.drop 16)

def aesEcb (cipher : Cipher) (size : Nat) (key data : Bytes) : Bytes :=
  if key.length < size then data else blocks (cipher (key.take size)) (data.length / 16) data

def xorCrypt (key data : Bytes) : Option Bytes :=
  if key = [] ∧ data ≠ [] then none
  else some (data.mapIdx fun i byte => byte ^^^ key.getD (i % key.length) 0)

def CryptoKey.crypt (cipher : Cipher) (k : CryptoKey) (data : Bytes) : Option Bytes :=
  if k.algId = calgRc4 then rc4Crypt k.keyData data
  else if k.algId = calgAes128 then some (aesEcb cipher 16 k.keyData data)
  else if k.algId = calgAes256 then some (aesEcb cipher 32 k.keyData data)
  else xorCrypt k.keyData data

def cryptData (cipher : Cipher) (s : CryptoStore) (handle : Nat) (data : Bytes) :
    Option (Bool × Bytes) :=
  match s handle with
  | none => some (false, data)
  | some k => (k.crypt cipher data).map (true, ·)

def encryptData (aes : Aes) := cryptData aes.encryptBlock

def decryptData (aes : Aes) := cryptData aes.decryptBlock

/-! ### There and back -/

theorem rc4Stream_rc4Stream (s : UInt8 → UInt8) (i j : UInt8) (data : Bytes) :
    rc4Stream s i j (rc4Stream s i j data) = data := by
  induction data generalizing s i j with
  | nil => rfl
  | cons byte data ih =>
    rw [rc4Stream, rc4Stream, ih, UInt8.xor_assoc, UInt8.xor_self, UInt8.xor_zero]

theorem blocks_blocks {f g : Bytes → Bytes}
    (hlength : ∀ block, block.length = 16 → (f block).length = 16)
    (hinv : ∀ block, block.length = 16 → g (f block) = block) {n : Nat} {data : Bytes}
    (hn : 16 * n ≤ data.length) :
    (blocks f n data).length = data.length ∧ blocks g n (blocks f n data) = data := by
  induction n generalizing data with
  | zero => exact ⟨rfl, rfl⟩
  | succ n ih =>
    have htake : (data.take 16).length = 16 := by
      rw [List.length_take]
      omega
    have hblock := hlength _ htake
    have hdrop : 16 * n ≤ (data.drop 16).length := by
      rw [List.length_drop]
      omega
    obtain ⟨hlen, hrest⟩ := ih hdrop
    rw [List.length_drop] at hlen
    constructor
    · rw [blocks, List.length_append, hblock, hlen]
      omega
    · rw [blocks, blocks, List.take_left' hblock, List.drop_left' hblock, hinv _ htake, hrest,
        List.take_append_drop]

theorem xorCrypt_xorCrypt {key data mid : Bytes} (hmid : xorCrypt key data = some mid) :
    xorCrypt key mid = some data := by
  rw [xorCrypt, Option.ite_none_left_eq_some] at hmid
  obtain ⟨hkey, heq⟩ := hmid
  cases heq
  rw [xorCrypt, if_neg (by simpa [List.mapIdx_eq_nil_iff] using hkey), List.mapIdx_mapIdx]
  congr 1
  refine List.ext_getElem (by simp) fun i hi hi' => ?_
  simp only [List.getElem_mapIdx, Function.comp_apply, UInt8.xor_assoc, UInt8.xor_self,
    UInt8.xor_zero]

/-- RC4 needs a key, and the fallback needs one for data. -/
def CryptoKey.Usable (k : CryptoKey) (data : Bytes) : Prop :=
  k.keyData = [] → k.algId ≠ calgRc4 ∧
    (k.algId = calgAes128 ∨ k.algId = calgAes256 ∨ data = [])

/-- The data comes back from `f` by `g`. -/
def Returns (f g : CryptoStore → Nat → Bytes → Option (Bool × Bytes)) (s : CryptoStore)
    (handle : Nat) (data : Bytes) : Prop :=
  ∃ ok mid, f s handle data = some (ok, mid) ∧ g s handle mid = some (ok, data)

section Inverse

variable {f g : Cipher}
  (hlength : ∀ key block, block.length = 16 → (f key block).length = 16)
  (hinv : ∀ key block, block.length = 16 → g key (f key block) = block)
include hlength hinv

theorem aesEcb_aesEcb (size : Nat) (key data : Bytes) :
    aesEcb g size key (aesEcb f size key data) = data := by
  unfold aesEcb
  split
  · rfl
  · obtain ⟨hlen, hback⟩ := blocks_blocks (hlength (key.take size)) (hinv (key.take size))
      (Nat.mul_div_le data.length 16)
    rw [hlen, hback]

theorem crypt_returns_iff (k : CryptoKey) (data : Bytes) :
    (∃ mid, k.crypt f data = some mid ∧ k.crypt g mid = some data) ↔ k.Usable data := by
  have haes := aesEcb_aesEcb hlength hinv
  unfold CryptoKey.crypt CryptoKey.Usable
  by_cases hrc4 : k.algId = calgRc4
  · simp only [if_pos hrc4, rc4Crypt]
    by_cases hkey : k.keyData = []
    · simp [hkey, hrc4]
    · simp [hkey, rc4Stream_rc4Stream]
  by_cases haes128 : k.algId = calgAes128
  · simp only [if_neg hrc4, if_pos haes128]
    exact iff_of_true ⟨_, rfl, congrArg some (haes ..)⟩ fun _ => ⟨hrc4, .inl haes128⟩
  by_cases haes256 : k.algId = calgAes256
  · simp only [if_neg hrc4, if_neg haes128, if_pos haes256]
    exact iff_of_true ⟨_, rfl, congrArg some (haes ..)⟩ fun _ => ⟨hrc4, .inr (.inl haes256)⟩
  simp only [if_neg hrc4, if_neg haes128, if_neg haes256]
  constructor
  · rintro ⟨mid, hmid, -⟩ hkey
    refine ⟨hrc4, .inr (.inr ?_)⟩
    by_contra hdata
    rw [xorCrypt, if_pos ⟨hkey, hdata⟩] at hmid
    cases hmid
  · intro husable
    have hmid : ¬ (k.keyData = [] ∧ data ≠ []) := fun h =>
      h.2 (((husable h.1).2.resolve_left haes128).resolve_left haes256)
    exact ⟨_, if_neg hmid, xorCrypt_xorCrypt (if_neg hmid)⟩

theorem cryptData_returns_iff (s : CryptoStore) (handle : Nat) (data : Bytes) :
    Returns (cryptData f) (cryptData g) s handle data ↔
      ∀ k, s handle = some k → k.Usable data := by
  unfold Returns cryptData
  cases s handle with
  | none => simp
  | some k =>
    simp only [Option.some.injEq, forall_eq', ← crypt_returns_iff hlength hinv]
    simp

end Inverse

/-- Whatever keys were set: data comes back both ways exactly if the key of the handle is not
empty, is one of AES, or is not needed. -/
theorem crypt_restores_iff (aes : Aes) (ops : List KeyOp) (handle : Nat) (data : Bytes) :
    (Returns (encryptData aes) (decryptData aes) (ops.foldl KeyOp.step fun _ => none) handle data ∧
      Returns (decryptData aes) (encryptData aes) (ops.foldl KeyOp.step fun _ => none) handle
        data) ↔
      ∀ k, ops.foldl KeyOp.step (fun _ => none) handle = some k → k.Usable data := by
  unfold encryptData decryptData
  rw [cryptData_returns_iff aes.encrypt_length aes.decrypt_encrypt,
    cryptData_returns_iff aes.decrypt_length aes.encrypt_decrypt, and_self_iff]

/-! ### Two blocks of AES -/

/-- What AES-128 makes of two blocks with the key of zeros. -/
def zeroBlock : Bytes × Bytes := (List.replicate 16 0,
  [0x66, 0xe9, 0x4b, 0xd4, 0xef, 0x8a, 0x2c, 0x3b, 0x88, 0x4c, 0xfa, 0x59, 0xca, 0x34, 0x2b, 0x2e])

def oneBlock : Bytes × Bytes := (1 :: List.replicate 15 0,
  [0x47, 0x71, 0x18, 0x16, 0xe9, 0x1d, 0x6f, 0xf0, 0x59, 0xbb, 0xbf, 0x2b, 0xf5, 0x8e, 0x0f, 0xd3])

def twoBlocks (key : Bytes) : Equiv.Perm Bytes :=
  if key = List.replicate 16 0 then
    (Equiv.swap zeroBlock.1 zeroBlock.2).trans (Equiv.swap oneBlock.1 oneBlock.2)
  else Equiv.refl Bytes

theorem length_swap {a b block : Bytes} (ha : a.length = 16) (hb : b.length = 16)
    (hblock : block.length = 16) : (Equiv.swap a b block).length = 16 := by
  rw [Equiv.swap_apply_def]
  split_ifs
  · exact hb
  · exact ha
  · exact hblock

theorem length_twoBlocks (key : Bytes) {block : Bytes} (hblock : block.length = 16) :
    (twoBlocks key block).length = 16 ∧ ((twoBlocks key).symm block).length = 16 := by
  unfold twoBlocks
  split
  · exact ⟨length_swap rfl rfl (length_swap rfl rfl hblock),
      length_swap rfl rfl (length_swap rfl rfl hblock)⟩
  · exact ⟨hblock, hblock⟩

def Aes.twoBlocks : Aes where
  encryptBlock key := CryptoState.twoBlocks key
  decryptBlock key := (CryptoState.twoBlocks key).symm
  encrypt_length key _ hblock := (length_twoBlocks key hblock).1
  decrypt_length key _ hblock := (length_twoBlocks key hblock).2
  decrypt_encrypt key block _ := (CryptoState.twoBlocks key).symm_apply_apply block
  encrypt_decrypt key block _ := (CryptoState.twoBlocks key).apply_symm_apply block

def zeroKey : List KeyOp := [.createKey 1 calgAes128 128, .setKeyData 1 (List.replicate 16 0)]

/-- Two blocks with a tail of two bytes, which is not encrypted. -/
theorem crypt_restores_iff_twoBlocks :
    encryptData .twoBlocks (zeroKey.foldl KeyOp.step fun _ => none) 1
        (zeroBlock.1 ++ oneBlock.1 ++ [5, 6]) =
      some (true, zeroBlock.2 ++ oneBlock.2 ++ [5, 6]) ∧
    decryptData .twoBlocks (zeroKey.foldl KeyOp.step fun _ => none) 1
        (zeroBlock.2 ++ oneBlock.2 ++ [5, 6]) =
      some (true, zeroBlock.1 ++ oneBlock.1 ++ [5, 6]) := by
  have hencrypt : encryptData .twoBlocks (zeroKey.foldl KeyOp.step fun _ => none) 1
      (zeroBlock.1 ++ oneBlock.1 ++ [5, 6]) =
        some (true, zeroBlock.2 ++ oneBlock.2 ++ [5, 6]) := by
    decide +kernel
  refine ⟨hencrypt, ?_⟩
  obtain ⟨⟨ok, mid, henc, hdec⟩, -⟩ := (crypt_restores_iff .twoBlocks zeroKey 1
    (zeroBlock.1 ++ oneBlock.1 ++ [5, 6])).mpr (by rintro k ⟨⟩ hkey; cases hkey)
  cases hencrypt.symm.trans henc
  exact hdec

/-- An RC4 key that the guest has set to nothing. -/
theorem rc4_empty_key_panics : encryptData .twoBlocks
    ([.createKey 1 calgRc4 128, .setKeyData 1 []].foldl KeyOp.step fun _ => none) 1 [0x41] = none :=
  rfl

end Mwemu.Api.CryptoState
