import Mathlib.Data.Nat.ModEq
import XCryptoSsh.Go

namespace Crypto
open Go List
set_option autoImplicit true

def xorAt (ks : Nat → UInt8) : Nat → Bytes → Bytes
  | _, [] => []
  | pos, b :: src => (b ^^^ ks pos) :: xorAt ks (pos + 1) src

@[simp] theorem length_xorAt (ks : Nat → UInt8) (pos : Nat) (src : Bytes) :
    (xorAt ks pos src).length = src.length := by
  induction src generalizing pos with
  | nil => rfl
  | cons b src ih => simp only [xorAt, length_cons, ih]

theorem xorAt_append (ks : Nat → UInt8) (pos : Nat) (a b : Bytes) :
    xorAt ks pos (a ++ b) = xorAt ks pos a ++ xorAt ks (pos + a.length) b := by
  induction a generalizing pos with
  | nil => rfl
  | cons x a ih =>
    have hp : pos + 1 + a.length = pos + (a.length + 1) := by omega
    simp only [cons_append, xorAt, length_cons, ih, hp]

theorem xorAt_xorAt (ks : Nat → UInt8) (pos : Nat) (src : Bytes) :
    xorAt ks pos (xorAt ks pos src) = src := by
  induction src generalizing pos with
  | nil => rfl
  | cons b src ih => simp only [xorAt, ih, UInt8.xor_assoc, UInt8.xor_self, UInt8.xor_zero]

/-- A keyed MAC: the tag of everything written since the last reset. -/
structure Mac where
  size : Nat
  sum : Bytes → Bytes
  length_sum : ∀ b, (sum b).length = size

def Mac.truncate (m : Mac) (n : Nat) (h : n ≤ m.size) : Mac where
  size := n
  sum b := (m.sum b).take n
  length_sum b := by
    rw [length_take, m.length_sum]
    exact Nat.min_eq_left h

/-- Authenticated encryption with a tag of `tagSize` bytes appended to the ciphertext. -/
structure Aead where
  nonceSize : Nat
  tagSize : Nat
  sealBytes : (nonce plain additional : Bytes) → Bytes
  openBytes : (nonce sealed additional : Bytes) → Option Bytes
  openBytes_sealBytes : ∀ n p a, openBytes n (sealBytes n p a) a = some p
  length_sealBytes : ∀ n p a, (sealBytes n p a).length = p.length + tagSize
  length_openBytes : ∀ n c a p, openBytes n c a = some p → c.length = p.length + tagSize

structure Block where
  size : Nat
  size_pos : 0 < size
  encrypt : Bytes → Bytes
  decrypt : Bytes → Bytes
  length_encrypt : ∀ b, b.length = size → (encrypt b).length = size
  length_decrypt : ∀ b, b.length = size → (decrypt b).length = size
  decrypt_encrypt : ∀ b, b.length = size → decrypt (encrypt b) = b

def xorBytes (a b : Bytes) : Bytes := zipWith (· ^^^ ·) a b

theorem length_xorBytes {a b : Bytes} (h : a.length = b.length) :
    (xorBytes a b).length = a.length := by
  rw [xorBytes, length_zipWith, h, Nat.min_self]

theorem xorBytes_xorBytes {a b : Bytes} (h : a.length = b.length) :
    xorBytes (xorBytes a b) b = a := by
  induction a generalizing b with
  | nil => rfl
  | cons x a ih =>
    cases b with
    | nil => cases h
    | cons y b =>
      have hr : a.length = b.length := by simpa using h
      have ih' := ih hr
      simp only [xorBytes] at ih' ⊢
      simp only [zipWith_cons_cons, ih', UInt8.xor_assoc, UInt8.xor_self, UInt8.xor_zero]

namespace Block

/-- Encrypts `n` blocks, each xored with the ciphertext before it; also the last ciphertext. -/
def chainEncrypt (b : Block) : Nat → Bytes → Bytes → Bytes × Bytes
  | 0, iv, _ => ([], iv)
  | n + 1, iv, src =>
    let c := b.encrypt (xorBytes (src.take b.size) iv)
    let r := b.chainEncrypt n c (src.drop b.size)
    (c ++ r.1, r.2)

def chainDecrypt (b : Block) : Nat → Bytes → Bytes → Bytes × Bytes
  | 0, iv, _ => ([], iv)
  | n + 1, iv, src =>
    let c := src.take b.size
    let r := b.chainDecrypt n c (src.drop b.size)
    (xorBytes (b.decrypt c) iv ++ r.1, r.2)

variable {b : Block} {iv src a : Bytes} {n : Nat}

theorem length_take_block (h : src.length = (n + 1) * b.size) :
    (src.take b.size).length = b.size := by
  have hn : b.size ≤ src.length := by
    rw [h, Nat.succ_mul]
    exact Nat.le_add_left _ _
  rw [length_take, Nat.min_eq_left hn]

theorem length_drop_block (h : src.length = (n + 1) * b.size) :
    (src.drop b.size).length = n * b.size := by
  rw [length_drop, h, Nat.succ_mul, Nat.add_sub_cancel]

theorem length_encrypt_xor (hiv : iv.length = b.size) (h : src.length = (n + 1) * b.size) :
    (b.encrypt (xorBytes (src.take b.size) iv)).length = b.size := by
  have ht := length_take_block h
  apply b.length_encrypt
  rw [length_xorBytes (ht.trans hiv.symm), ht]

theorem length_chainEncrypt (hiv : iv.length = b.size) (h : src.length = n * b.size) :
    (b.chainEncrypt n iv src).1.length = n * b.size ∧
      (b.chainEncrypt n iv src).2.length = b.size := by
  induction n generalizing iv src with
  | zero => exact ⟨(Nat.zero_mul _).symm, hiv⟩
  | succ n ih =>
    have hc := length_encrypt_xor hiv h
    have hr := ih hc (length_drop_block h)
    refine ⟨?_, hr.2⟩
    simp only [chainEncrypt, length_append]
    rw [hc, hr.1, Nat.succ_mul, Nat.add_comm]

theorem length_chainDecrypt (hiv : iv.length = b.size) (h : src.length = n * b.size) :
    (b.chainDecrypt n iv src).1.length = n * b.size ∧
      (b.chainDecrypt n iv src).2.length = b.size := by
  induction n generalizing iv src with
  | zero => exact ⟨(Nat.zero_mul _).symm, hiv⟩
  | succ n ih =>
    have hc := length_take_block h
    have hd := b.length_decrypt _ hc
    have hr := ih hc (length_drop_block h)
    refine ⟨?_, hr.2⟩
    simp only [chainDecrypt, length_append]
    rw [length_xorBytes (hd.trans hiv.symm), hd, hr.1, Nat.succ_mul, Nat.add_comm]

theorem chainEncrypt_append (h : src.length = n * b.size) :
    b.chainEncrypt (n + m) iv (src ++ a) =
      ((b.chainEncrypt n iv src).1 ++ (b.chainEncrypt m (b.chainEncrypt n iv src).2 a).1,
        (b.chainEncrypt m (b.chainEncrypt n iv src).2 a).2) := by
  induction n generalizing iv src with
  | zero =>
    have hs : src = [] := length_eq_zero_iff.mp (by rw [h, Nat.zero_mul])
    rw [hs, Nat.zero_add]
    rfl
  | succ n ih =>
    have ht : b.size ≤ src.length := by
      rw [h, Nat.succ_mul]
      exact Nat.le_add_left _ _
    have hnm : n + 1 + m = n + m + 1 := by omega
    rw [hnm]
    simp only [chainEncrypt]
    rw [take_append_of_le_length ht, drop_append_of_le_length ht,
      ih (length_drop_block h), append_assoc]

theorem chainDecrypt_chainEncrypt (hiv : iv.length = b.size) (h : src.length = n * b.size) :
    b.chainDecrypt n iv (b.chainEncrypt n iv src).1 = (src, (b.chainEncrypt n iv src).2) := by
  induction n generalizing iv src with
  | zero =>
    have hs : src = [] := length_eq_zero_iff.mp (by rw [h, Nat.zero_mul])
    rw [hs]
    rfl
  | succ n ih =>
    have hc := length_encrypt_xor hiv h
    have ht := length_take_block h
    have hx : (xorBytes (src.take b.size) iv).length = b.size := by
      rw [length_xorBytes (ht.trans hiv.symm), ht]
    simp only [chainEncrypt, chainDecrypt]
    rw [take_left' hc, drop_left' hc, ih hc (length_drop_block h),
      b.decrypt_encrypt _ hx, xorBytes_xorBytes (ht.trans hiv.symm), take_append_drop]

end Block

/-- A `cipher.BlockMode` of cipher block chaining: the block cipher and the last ciphertext. -/
structure CbcMode where
  block : Block
  chain : Bytes
  length_chain : chain.length = block.size

namespace CbcMode

/-- `cipher.NewCBCEncrypter` and `cipher.NewCBCDecrypter`, which panic on a wrong IV length. -/
def new (b : Block) (iv : Bytes) : Option CbcMode :=
  if h : iv.length = b.size then some ⟨b, iv, h⟩ else none

theorem length_of_mod {m : CbcMode} {src : Bytes} (h : src.length % m.block.size = 0) :
    src.length = src.length / m.block.size * m.block.size :=
  (Nat.div_mul_cancel (Nat.dvd_of_mod_eq_zero h)).symm

def encrypt (m : CbcMode) (src : Bytes) : Option (Bytes × CbcMode) :=
  if h : src.length % m.block.size = 0 then
    let r := m.block.chainEncrypt (src.length / m.block.size) m.chain src
    some (r.1, ⟨m.block, r.2, (Block.length_chainEncrypt m.length_chain (length_of_mod h)).2⟩)
  else none

def decrypt (m : CbcMode) (src : Bytes) : Option (Bytes × CbcMode) :=
  if h : src.length % m.block.size = 0 then
    let r := m.block.chainDecrypt (src.length / m.block.size) m.chain src
    some (r.1, ⟨m.block, r.2, (Block.length_chainDecrypt m.length_chain (length_of_mod h)).2⟩)
  else none

variable {m : CbcMode} {src a : Bytes}

theorem decrypt_of_mod (h : src.length % m.block.size = 0) :
    ∃ p m', m.decrypt src = some (p, m') ∧ p.length = src.length ∧ m'.block = m.block := by
  refine ⟨_, _, dif_pos h, ?_, rfl⟩
  rw [(Block.length_chainDecrypt m.length_chain (length_of_mod h)).1, ← length_of_mod h]

theorem encrypt_of_mod (h : a.length % m.block.size = 0) :
    ∃ c m', m.encrypt a = some (c, m') ∧ m'.block = m.block :=
  ⟨_, _, dif_pos h, rfl⟩

theorem block_decrypt (h : m.decrypt src = some (p, m')) : m'.block = m.block := by
  simp only [decrypt] at h
  split at h
  · cases h
    rfl
  · cases h

theorem block_encrypt (h : m.encrypt src = some (p, m')) : m'.block = m.block := by
  simp only [encrypt] at h
  split at h
  · cases h
    rfl
  · cases h

theorem length_of_encrypt (h : m.encrypt src = some (p, m')) : p.length = src.length := by
  simp only [encrypt] at h
  split at h
  case isTrue hm =>
    cases h
    exact (Block.length_chainEncrypt m.length_chain (length_of_mod hm)).1.trans
      (length_of_mod hm).symm
  case isFalse => cases h

theorem length_of_decrypt (h : m.decrypt src = some (p, m')) : p.length = src.length := by
  simp only [decrypt] at h
  split at h
  case isTrue hm =>
    cases h
    exact (Block.length_chainDecrypt m.length_chain (length_of_mod hm)).1.trans
      (length_of_mod hm).symm
  case isFalse => cases h

theorem encrypt_append (ha : a.length % m.block.size = 0) (hs : src.length % m.block.size = 0) :
    ∃ ca cs m₁ m₂, m.encrypt (a ++ src) = some (ca ++ cs, m₂) ∧
      ca.length = a.length ∧ cs.length = src.length ∧
      m.decrypt ca = some (a, m₁) ∧ m₁.decrypt cs = some (src, m₂) ∧ m₂.block = m.block := by
  have hla := length_of_mod ha
  have hls := length_of_mod hs
  have hm : (a ++ src).length % m.block.size = 0 := by
    rw [length_append, Nat.add_mod, ha, hs]
    simp
  have hdiv : (a ++ src).length / m.block.size =
      a.length / m.block.size + src.length / m.block.size := by
    rw [length_append]
    exact Nat.add_div_of_dvd_right (Nat.dvd_of_mod_eq_zero ha)
  have la := Block.length_chainEncrypt m.length_chain hla
  have ls := Block.length_chainEncrypt la.2 hls
  have hca : (m.block.chainEncrypt (a.length / m.block.size) m.chain a).1.length = a.length :=
    la.1.trans hla.symm
  have hcs := ls.1.trans hls.symm
  refine ⟨_, _, ⟨m.block, _, la.2⟩, ⟨m.block, _, ls.2⟩, ?_, hca, hcs, ?_, ?_, rfl⟩
  · simp only [encrypt, dif_pos hm]
    simp only [hdiv, Block.chainEncrypt_append hla]
  · have hd : (m.block.chainEncrypt (a.length / m.block.size) m.chain a).1.length %
        m.block.size = 0 := by rw [hca, ha]
    simp only [decrypt, dif_pos hd]
    simp only [hca, Block.chainDecrypt_chainEncrypt m.length_chain hla]
  · have hd : (m.block.chainEncrypt (src.length / m.block.size)
        (m.block.chainEncrypt (a.length / m.block.size) m.chain a).2 src).1.length %
        m.block.size = 0 := by rw [hcs, hs]
    simp only [decrypt, dif_pos hd]
    simp only [hcs, Block.chainDecrypt_chainEncrypt la.2 hls]

end CbcMode

end Crypto
