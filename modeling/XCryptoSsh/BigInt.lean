import Mathlib.Data.Nat.Digits.Lemmas
import Mathlib.Data.Nat.Size
import XCryptoSsh.Go

namespace Go
open List
set_option autoImplicit true

/-- `new(big.Int).SetBytes(b)`. -/
def setBytes (b : Bytes) : Nat := b.foldl (fun n x => n * 256 + x.toNat) 0

/-- `n.Bytes()`, which has no leading zero. -/
def natBytes (n : Nat) : Bytes := (Nat.digits 256 n).reverse.map UInt8.ofNat

/-- `n.BitLen()`. -/
def bitLen (n : Nat) : Nat := n.size

theorem foldl_setBytes (b : Bytes) (n : Nat) :
    b.foldl (fun n x => n * 256 + x.toNat) n = n * 256 ^ b.length + setBytes b := by
  induction b generalizing n with
  | nil => simp [setBytes]
  | cons x b ih =>
    have h := ih (n * 256 + x.toNat)
    have h₀ := ih (0 * 256 + x.toNat)
    simp only [setBytes, foldl_cons, length_cons] at h h₀ ⊢
    rw [h, h₀]
    ring

@[simp] theorem setBytes_nil : setBytes [] = 0 := rfl

theorem setBytes_cons (x : UInt8) (b : Bytes) :
    setBytes (x :: b) = x.toNat * 256 ^ b.length + setBytes b := by
  have h := foldl_setBytes b (0 * 256 + x.toNat)
  rwa [← foldl_cons, Nat.zero_mul, Nat.zero_add] at h

@[simp] theorem setBytes_zero_cons (b : Bytes) : setBytes (0 :: b) = setBytes b := by
  simp [setBytes_cons]

theorem setBytes_lt (b : Bytes) : setBytes b < 256 ^ b.length := by
  induction b with
  | nil => simp
  | cons x b ih =>
    have hx := x.toNat_lt
    rw [setBytes_cons, length_cons, pow_succ]
    nlinarith

theorem setBytes_map_toNat (ds : List Nat) (h : ∀ d ∈ ds, d < 256) :
    setBytes ((ds.reverse).map UInt8.ofNat) = Nat.ofDigits 256 ds := by
  induction ds with
  | nil => rfl
  | cons d ds ih =>
    have hd : d < 256 := h d mem_cons_self
    have hds := ih fun e he => h e (mem_cons_of_mem _ he)
    rw [reverse_cons, map_append, setBytes, foldl_append]
    change setBytes _ * 256 + (UInt8.ofNat d).toNat = _
    rw [hds, UInt8.toNat_ofNat', Nat.mod_eq_of_lt hd, Nat.ofDigits_cons]
    ring

@[simp] theorem setBytes_natBytes (n : Nat) : setBytes (natBytes n) = n := by
  rw [natBytes, setBytes_map_toNat _ fun d hd => Nat.digits_lt_base (by norm_num) hd,
    Nat.ofDigits_digits]

@[simp] theorem natBytes_zero : natBytes 0 = [] := rfl

theorem length_natBytes (n : Nat) : (natBytes n).length = (bitLen n + 7) / 8 := by
  by_cases hn : n = 0
  · subst n
    rfl
  have hlt : n < 2 ^ (8 * (natBytes n).length) := by
    have h := setBytes_lt (natBytes n)
    rwa [setBytes_natBytes, show 256 = 2 ^ 8 from rfl, ← pow_mul] at h
  have hle : 2 ^ (8 * (natBytes n).length) ≤ 2 ^ 8 * n := by
    have h := Nat.base_pow_length_digits_le 256 n (by norm_num) hn
    have hl : (natBytes n).length = (Nat.digits 256 n).length := by simp [natBytes]
    rwa [hl, pow_mul]
  have hpos : 0 < (natBytes n).length := by
    by_contra h0
    rw [Nat.eq_zero_of_not_pos h0] at hlt
    exact hn (Nat.lt_one_iff.mp hlt)
  have hlow : 2 ^ (8 * ((natBytes n).length - 1)) ≤ n := by
    have he : 8 * (natBytes n).length = 8 + 8 * ((natBytes n).length - 1) := by omega
    rw [he, pow_add] at hle
    exact Nat.le_of_mul_le_mul_left hle (by norm_num)
  have hsize := Nat.size_le.mpr hlt
  have hsize' := Nat.lt_size.mpr hlow
  rw [bitLen]
  omega

theorem head_natBytes (h : natBytes n = x :: b) :
    128 ≤ x.toNat ↔ bitLen n % 8 = 0 := by
  have hn : n = x.toNat * 256 ^ b.length + setBytes b := by
    rw [← setBytes_cons, ← h, setBytes_natBytes]
  have hb := setBytes_lt b
  have hlen := length_natBytes n
  rw [h, length_cons] at hlen
  have htop : 128 ≤ x.toNat ↔ 2 ^ (8 * b.length + 7) ≤ n := by
    have hp : 2 ^ (8 * b.length + 7) = 128 * 256 ^ b.length := by
      rw [pow_add, pow_mul]
      ring
    rw [hp, hn]
    constructor
    · intro hx
      nlinarith
    intro hle
    by_contra hx
    have hx' : x.toNat + 1 ≤ 128 := by omega
    have hm := Nat.mul_le_mul_right (256 ^ b.length) hx'
    rw [Nat.add_mul, Nat.one_mul] at hm
    omega
  rw [htop, ← Nat.lt_size]
  rw [bitLen] at hlen ⊢
  omega

theorem setBytes_inj {b b' : Bytes} (hlen : b.length = b'.length) (h : setBytes b = setBytes b') :
    b = b' := by
  induction b generalizing b' with
  | nil => exact (List.length_eq_zero_iff.mp hlen.symm).symm
  | cons x b ih =>
    cases b' with
    | nil => cases hlen
    | cons y b' =>
      have hlen : b.length = b'.length := Nat.succ.inj hlen
      have hb := setBytes_lt b
      have hb' := setBytes_lt b'
      rw [setBytes_cons, setBytes_cons, ← hlen] at h
      rw [← hlen] at hb'
      have hx : x.toNat = y.toNat := by
        have hq := congrArg (fun n => n / 256 ^ b.length) h
        simp only [Nat.mul_comm _ (256 ^ b.length)] at hq
        rwa [Nat.mul_add_div (by positivity), Nat.mul_add_div (by positivity),
          Nat.div_eq_of_lt hb, Nat.div_eq_of_lt hb'] at hq
      rw [hx, Nat.add_left_cancel_iff] at h
      rw [UInt8.toNat_inj.mp hx, ih hlen h]

theorem natBytes_ne_nil (h : n ≠ 0) : natBytes n ≠ [] := by
  intro hnil
  have hn := setBytes_natBytes n
  rw [hnil, setBytes_nil] at hn
  exact h hn.symm

theorem head_natBytes_ne_zero (h : natBytes n = x :: b) : x ≠ 0 := by
  rintro rfl
  have hn : n = setBytes b := by rw [← setBytes_natBytes n, h, setBytes_zero_cons]
  have hlt : n < 2 ^ (8 * b.length) := by
    have hb := setBytes_lt b
    rwa [← hn, show 256 = 2 ^ 8 from rfl, ← pow_mul] at hb
  have hsize := Nat.size_le.mpr hlt
  have hlen := length_natBytes n
  rw [h, length_cons, bitLen] at hlen
  omega

theorem natBytes_setBytes (h : x ≠ 0) : natBytes (setBytes (x :: b)) = x :: b := by
  have hx : 0 < x.toNat := Nat.pos_of_ne_zero fun h0 => h (UInt8.toNat_inj.mp h0)
  apply setBytes_inj
  · have hlo : 2 ^ (8 * b.length) ≤ setBytes (x :: b) := by
      rw [setBytes_cons, pow_mul]
      exact (Nat.le_mul_of_pos_left _ hx).trans (Nat.le_add_right _ _)
    have hhi : setBytes (x :: b) < 2 ^ (8 * (x :: b).length) := by
      rw [pow_mul]
      exact setBytes_lt _
    have h₁ := Nat.lt_size.mpr hlo
    have h₂ := Nat.size_le.mpr hhi
    rw [length_natBytes, bitLen, length_cons] at *
    omega
  · exact setBytes_natBytes _

theorem forall_byte {P : UInt8 → Prop} (h : ∀ i : Fin 256, P (UInt8.ofNat i.val)) (x : UInt8) :
    P x := by
  have hx := h ⟨x.toNat, x.toNat_lt⟩
  rwa [UInt8.ofNat_toNat] at hx

theorem and_signBit : ∀ x : UInt8, x &&& 0x80 = 0x80 ↔ 128 ≤ x.toNat :=
  forall_byte (by decide +kernel)

theorem and_signBit_eq_zero : ∀ x : UInt8, x &&& 0x80 = 0 ↔ x.toNat < 128 :=
  forall_byte (by decide +kernel)

theorem toNat_not : ∀ x : UInt8, (~~~x).toNat = 255 - x.toNat :=
  forall_byte (by decide +kernel)

theorem not_xor_ones : ∀ x : UInt8, ~~~(x ^^^ 0xff) = x :=
  forall_byte (by decide +kernel)

end Go
