import Mathlib.Data.List.Basic

namespace Utf8
open List
set_option autoImplicit true

abbrev Rune := Nat

def runeError : Rune := 0xfffd

def validRune (r : Rune) : Bool := r < 0xd800 || (0xdfff < r && r ≤ 0x10ffff)

def encodeValid (r : Rune) : List UInt8 :=
  if r < 0x80 then [.ofNat r]
  else if r < 0x800 then [.ofNat (0xc0 + r / 64), .ofNat (0x80 + r % 64)]
  else if r < 0x10000 then
    [.ofNat (0xe0 + r / 4096), .ofNat (0x80 + r / 64 % 64), .ofNat (0x80 + r % 64)]
  else
    [.ofNat (0xf0 + r / 262144), .ofNat (0x80 + r / 4096 % 64), .ofNat (0x80 + r / 64 % 64),
      .ofNat (0x80 + r % 64)]

def encodeRune (r : Rune) : List UInt8 := encodeValid (if validRune r then r else runeError)

/-- The conversion `string(runes)`. -/
def encode (runes : List Rune) : List UInt8 := runes.flatMap encodeRune

/-- How an encoding of several bytes begins: its length and the range of its second byte. -/
def lead (b : UInt8) : Option (Nat × UInt8 × UInt8) :=
  if b < 0xc2 then none
  else if b < 0xe0 then some (2, 0x80, 0xbf)
  else if b = 0xe0 then some (3, 0xa0, 0xbf)
  else if b = 0xed then some (3, 0x80, 0x9f)
  else if b < 0xf0 then some (3, 0x80, 0xbf)
  else if b = 0xf0 then some (4, 0x90, 0xbf)
  else if b < 0xf4 then some (4, 0x80, 0xbf)
  else if b = 0xf4 then some (4, 0x80, 0x8f)
  else none

def continues (b : UInt8) : Bool := 0x80 ≤ b && b ≤ 0xbf

/-- `FullRune`: the bytes begin with an encoding, or with none that more bytes could complete. -/
def fullRune : List UInt8 → Bool
  | [] => false
  | b :: bs =>
    if b < 0x80 then true
    else match lead b with
      | none => true
      | some (size, lo, hi) =>
        if size ≤ bs.length + 1 then true
        else match bs with
          | [] => false
          | b₁ :: bs =>
            if b₁ < lo || hi < b₁ then true
            else match bs with
              | [] => false
              | b₂ :: _ => !continues b₂

def decodeLong (b : UInt8) (bs : List UInt8) : Rune × Nat :=
  match lead b, bs with
  | some (2, lo, hi), b₁ :: _ =>
    if b₁ < lo || hi < b₁ then (runeError, 1) else (b.toNat % 32 * 64 + b₁.toNat % 64, 2)
  | some (3, lo, hi), b₁ :: b₂ :: _ =>
    if b₁ < lo || hi < b₁ || !continues b₂ then (runeError, 1)
    else (b.toNat % 16 * 4096 + b₁.toNat % 64 * 64 + b₂.toNat % 64, 3)
  | some (4, lo, hi), b₁ :: b₂ :: b₃ :: _ =>
    if b₁ < lo || hi < b₁ || !continues b₂ || !continues b₃ then (runeError, 1)
    else (b.toNat % 8 * 262144 + b₁.toNat % 64 * 4096 + b₂.toNat % 64 * 64 + b₃.toNat % 64, 4)
  | _, _ => (runeError, 1)

/-- `DecodeRune`: the first rune and the number of its bytes. -/
def decodeRune : List UInt8 → Rune × Nat
  | [] => (runeError, 0)
  | b :: bs => if b < 0x80 then (b.toNat, 1) else decodeLong b bs

theorem decodeLong_pos (b : UInt8) (bs : List UInt8) : 0 < (decodeLong b bs).2 := by
  unfold decodeLong
  split
  iterate 3
    · split <;> exact Nat.succ_pos _
  · exact Nat.one_pos

theorem decodeRune_pos (b : UInt8) (bs : List UInt8) : 0 < (decodeRune (b :: bs)).2 := by
  rw [decodeRune]
  split
  · exact Nat.one_pos
  · exact decodeLong_pos b bs

theorem decodeLong_length (b : UInt8) (bs : List UInt8) :
    (decodeLong b bs).2 ≤ bs.length + 1 := by
  unfold decodeLong
  split
  · split <;> simp
  · split <;> simp
  · split <;> simp
  · simp

theorem decodeRune_length (s : List UInt8) : (decodeRune s).2 ≤ s.length := by
  cases s with
  | nil => exact Nat.le_refl 0
  | cons b bs =>
    rw [decodeRune]
    split
    · simp
    · exact decodeLong_length b bs

/-- The conversion `[]rune(s)`. -/
def decode : List UInt8 → List Rune
  | [] => []
  | b :: bs => (decodeRune (b :: bs)).1 :: decode ((b :: bs).drop (decodeRune (b :: bs)).2)
  termination_by bs => bs.length
  decreasing_by
    have := decodeRune_pos b bs
    simp only [length_drop, length_cons]
    omega

def runeCount (s : List UInt8) : Nat := (decode s).length

theorem lead_size (h : lead b = some (n, lo, hi)) : n = 2 ∨ n = 3 ∨ n = 4 := by
  unfold lead at h
  split_ifs at h <;> simp_all

theorem lead_range (h : lead b = some (n, lo, hi)) : 0x80 ≤ b ∧ 0x80 ≤ lo := by
  unfold lead at h
  split_ifs at h with h₁ <;> cases h <;>
    exact ⟨UInt8.le_trans (by decide) (UInt8.not_lt.mp h₁), by decide⟩

theorem decodeLong_append (h : (decodeLong b bs).1 ≠ runeError) (c : List UInt8) :
    decodeLong b (bs ++ c) = decodeLong b bs := by
  unfold decodeLong at h ⊢
  split at h
  iterate 3
    · rename_i h₁
      rw [h₁]
      rfl
  · exact absurd rfl h

theorem decodeRune_append (h : (decodeRune b).1 ≠ runeError) (c : List UInt8) :
    decodeRune (b ++ c) = decodeRune b := by
  cases b with
  | nil => exact absurd rfl h
  | cons b bs =>
    simp only [decodeRune, cons_append] at h ⊢
    split
    · rfl
    rename_i hb
    rw [if_neg hb] at h
    exact decodeLong_append h c

theorem continues_range (h : continues b = true) : 0x80 ≤ b := by
  simp only [continues, Bool.and_eq_true, decide_eq_true_eq] at h
  exact h.1

theorem decodeLong_bytes (h : (decodeLong b bs).1 ≠ runeError) :
    ∃ lo hi, lead b = some ((decodeLong b bs).2, lo, hi) ∧
      (decodeLong b bs).2 ≤ bs.length + 1 ∧ ∀ x ∈ bs.take ((decodeLong b bs).2 - 1), 0x80 ≤ x := by
  unfold decodeLong at h ⊢
  split at h
  on_goal 4 => exact absurd rfl h
  all_goals
    rename_i hl
    split at h
    · exact absurd rfl h
    rename_i hr
    rw [if_neg hr]
    simp only [Bool.or_eq_true, decide_eq_true_eq, not_or, UInt8.not_lt, Bool.not_eq_true',
      Bool.not_eq_false] at hr
    refine ⟨_, _, hl, by simp, ?_⟩
    have hlow := (lead_range hl).2
    grind [UInt8.le_trans, continues_range]

theorem fullRune_of_decode (h : (decodeRune b).1 ≠ runeError) : fullRune b = true := by
  cases b with
  | nil => exact absurd rfl h
  | cons b bs =>
    simp only [decodeRune] at h
    rw [fullRune]
    split
    · rfl
    rename_i hb
    rw [if_neg hb] at h
    obtain ⟨lo, hi, hl, hlen, -⟩ := decodeLong_bytes h
    simp only [hl, if_pos hlen]

theorem decodeLong_of_full (hb : ¬ b < 0x80) (hf : fullRune (b :: bs) = true)
    (h : (decodeLong b (bs ++ c)).1 ≠ runeError) : decodeLong b (bs ++ c) = decodeLong b bs := by
  obtain ⟨lo, hi, hl, -, -⟩ := decodeLong_bytes h
  rw [fullRune, if_neg hb, hl] at hf
  rcases lead_size hl with hn | hn | hn
  all_goals
    rw [hn] at hl hf
    unfold decodeLong at h ⊢
    rw [hl] at h ⊢
  · match bs, hf with
    | [], hf => simp at hf
    | b₁ :: _, _ => rfl
  · match bs, hf with
    | [], hf => simp at hf
    | [b₁], hf =>
      -- the second byte is out of range, so it never was a rune
      cases c <;> simp_all
    | b₁ :: b₂ :: _, _ => rfl
  · match bs, hf with
    | [], hf => simp at hf
    | [b₁], hf => match c with
      | [] | [_] => simp_all
      | _ :: _ :: _ => simp_all
    | [b₁, b₂], hf =>
      cases c <;> simp_all
    | b₁ :: b₂ :: b₃ :: _, _ => rfl

theorem decodeRune_of_full (hf : fullRune b = true) (h : (decodeRune (b ++ c)).1 ≠ runeError) :
    decodeRune (b ++ c) = decodeRune b := by
  cases b with
  | nil => cases hf
  | cons b bs =>
    simp only [decodeRune, cons_append] at h ⊢
    split
    · rfl
    rename_i hb
    rw [if_neg hb] at h
    exact decodeLong_of_full hb hf h

/-- Valid UTF-8 without U+FFFD. -/
def Clean (s : List UInt8) : Prop := runeError ∉ decode s

instance : Decidable (Clean s) := inferInstanceAs (Decidable (¬ _ ∈ _))

theorem decode_cons (b : UInt8) (bs : List UInt8) : decode (b :: bs) =
    (decodeRune (b :: bs)).1 :: decode ((b :: bs).drop (decodeRune (b :: bs)).2) := by
  rw [decode]

theorem Clean.first (h : Clean (b :: bs)) : (decodeRune (b :: bs)).1 ≠ runeError := by
  intro he
  rw [Clean, decode_cons, he] at h
  exact h mem_cons_self

theorem Clean.drop (h : Clean (b :: bs)) :
    Clean ((b :: bs).drop (decodeRune (b :: bs)).2) := by
  intro he
  rw [Clean, decode_cons] at h
  exact h (mem_cons_of_mem _ he)

theorem Clean.after (h : Clean (x ++ a :: y)) (ha : a < 0x80) : Clean y := by
  induction hn : x.length using Nat.strongRecOn generalizing x with
  | ind n ih =>
    cases x with
    | nil =>
      have hd := h.drop
      rwa [decodeRune, if_pos ha] at hd
    | cons b bs =>
      rw [cons_append] at h
      have hne := h.first
      have hpos := decodeRune_pos b (bs ++ a :: y)
      have hd := h.drop
      by_cases hle : (decodeRune (b :: (bs ++ a :: y))).2 ≤ bs.length + 1
      · rw [← cons_append] at hd hle hpos
        rw [drop_append_of_le_length hle] at hd
        apply ih _ _ hd rfl
        rw [← hn, length_drop, length_cons]
        omega
      · -- the byte would be inside a rune of several bytes
        simp only [decodeRune] at hne hle hpos
        split at hle
        · omega
        rename_i hb
        rw [if_neg hb] at hne
        obtain ⟨lo, hi, -, -, hall⟩ := decodeLong_bytes hne
        have hmem : a ∈ (bs ++ a :: y).take ((decodeLong b (bs ++ a :: y)).2 - 1) := by
          rw [take_append]
          apply mem_append_right
          obtain ⟨k, hk⟩ := Nat.exists_eq_add_of_lt
            (show bs.length < (decodeLong b (bs ++ a :: y)).2 - 1 by omega)
          rw [hk, show bs.length + k + 1 - bs.length = k + 1 by omega, take_succ_cons]
          exact mem_cons_self
        exact absurd ha (UInt8.not_lt.mpr (hall a hmem))

theorem toNat_ofNat (h : n < 256) : (UInt8.ofNat n).toNat = n := by
  rw [UInt8.toNat_ofNat', Nat.mod_eq_of_lt h]

theorem not_lt_of_toNat {b c : UInt8} (h : c.toNat ≤ b.toNat) : ¬ b < c :=
  Nat.not_lt.mpr h

theorem lead_two (h : 0xc2 ≤ b.toNat) (h' : b.toNat < 0xe0) : lead b = some (2, 0x80, 0xbf) := by
  unfold lead
  simp only [UInt8.lt_iff_toNat_lt, UInt8.reduceToNat]
  rw [if_neg (by omega), if_pos h']

theorem lead_three (h : 0xe0 ≤ b.toNat) (h' : b.toNat < 0xf0) :
    lead b = some (3, if b.toNat = 0xe0 then 0xa0 else 0x80,
      if b.toNat = 0xed then 0x9f else 0xbf) := by
  unfold lead
  simp only [UInt8.lt_iff_toNat_lt, ← UInt8.toNat_inj, UInt8.reduceToNat]
  split_ifs <;> first | rfl | omega

theorem lead_four (h : 0xf0 ≤ b.toNat) (h' : b.toNat < 0xf5) :
    lead b = some (4, if b.toNat = 0xf0 then 0x90 else 0x80,
      if b.toNat = 0xf4 then 0x8f else 0xbf) := by
  unfold lead
  simp only [UInt8.lt_iff_toNat_lt, ← UInt8.toNat_inj, UInt8.reduceToNat]
  split_ifs <;> first | rfl | omega

theorem decodeLong_two (h : lead b = some (2, lo, hi)) (hlo : lo.toNat ≤ b₁.toNat)
    (hhi : b₁.toNat ≤ hi.toNat) : decodeLong b (b₁ :: bs) =
      (b.toNat % 32 * 64 + b₁.toNat % 64, 2) := by
  unfold decodeLong
  rw [h]
  refine if_neg ?_
  rw [Bool.or_eq_true, decide_eq_true_eq, decide_eq_true_eq]
  rintro (hb | hb)
  · exact not_lt_of_toNat hlo hb
  · exact not_lt_of_toNat hhi hb

theorem continues_of_toNat (h : 0x80 ≤ b.toNat) (h' : b.toNat ≤ 0xbf) : continues b = true := by
  unfold continues
  rw [Bool.and_eq_true, decide_eq_true_eq, decide_eq_true_eq]
  exact ⟨h, h'⟩

theorem decodeLong_three (h : lead b = some (3, lo, hi)) (hlo : lo.toNat ≤ b₁.toNat)
    (hhi : b₁.toNat ≤ hi.toNat) (h₂ : continues b₂ = true) : decodeLong b (b₁ :: b₂ :: bs) =
      (b.toNat % 16 * 4096 + b₁.toNat % 64 * 64 + b₂.toNat % 64, 3) := by
  unfold decodeLong
  rw [h]
  refine if_neg ?_
  rw [h₂, Bool.or_eq_true, Bool.or_eq_true, decide_eq_true_eq, decide_eq_true_eq]
  rintro ((hb | hb) | hb)
  · exact not_lt_of_toNat hlo hb
  · exact not_lt_of_toNat hhi hb
  · cases hb

theorem decodeLong_four (h : lead b = some (4, lo, hi)) (hlo : lo.toNat ≤ b₁.toNat)
    (hhi : b₁.toNat ≤ hi.toNat) (h₂ : continues b₂ = true) (h₃ : continues b₃ = true) :
    decodeLong b (b₁ :: b₂ :: b₃ :: bs) =
      (b.toNat % 8 * 262144 + b₁.toNat % 64 * 4096 + b₂.toNat % 64 * 64 + b₃.toNat % 64, 4) := by
  unfold decodeLong
  rw [h]
  refine if_neg ?_
  rw [h₂, h₃, Bool.or_eq_true, Bool.or_eq_true, Bool.or_eq_true, decide_eq_true_eq,
    decide_eq_true_eq]
  rintro (((hb | hb) | hb) | hb)
  · exact not_lt_of_toNat hlo hb
  · exact not_lt_of_toNat hhi hb
  · cases hb
  · cases hb

theorem decodeRune_long (h : 0x80 ≤ b.toNat) : decodeRune (b :: bs) = decodeLong b bs := by
  rw [decodeRune, if_neg (not_lt_of_toNat (c := 0x80) h)]

theorem decodeRune_encodeValid {n : Nat} (h : validRune n = true) (c : List UInt8) :
    decodeRune (encodeValid n ++ c) = (n, (encodeValid n).length) := by
  have hv : n < 0xd800 ∨ 0xdfff < n ∧ n ≤ 0x10ffff := by
    simpa [validRune] using h
  unfold encodeValid
  by_cases h1 : n < 0x80
  · have h0 := toNat_ofNat (show n < 256 by omega)
    rw [if_pos h1, cons_append, decodeRune, if_pos (by
      change (UInt8.ofNat n).toNat < 0x80
      omega), h0]
    rfl
  · rw [if_neg h1]
    have hlast := toNat_ofNat (show 0x80 + n % 64 < 256 by omega)
    by_cases h2 : n < 0x800
    · have h0 := toNat_ofNat (show 0xc0 + n / 64 < 256 by omega)
      rw [if_pos h2, cons_append, decodeRune_long (by omega), cons_append,
        decodeLong_two (lead_two (by omega) (by omega)) (by rw [hlast]; exact Nat.le_add_right _ _)
          (by rw [hlast]; change _ ≤ 0xbf; omega), h0, hlast]
      congr 1
      omega
    · rw [if_neg h2]
      have hmid := toNat_ofNat (show 0x80 + n / 64 % 64 < 256 by omega)
      have hc := continues_of_toNat (b := UInt8.ofNat (0x80 + n % 64)) (by omega) (by omega)
      by_cases h3 : n < 0x10000
      · have h0 := toNat_ofNat (show 0xe0 + n / 4096 < 256 by omega)
        rw [if_pos h3, cons_append, decodeRune_long (by omega), cons_append,
          cons_append, decodeLong_three (lead_three (by omega) (by omega)) _ _ hc, h0, hmid,
          hlast]
        · congr 1
          omega
        · rw [hmid]
          split
          · change 0xa0 ≤ _
            omega
          · exact Nat.le_add_right _ _
        · rw [hmid]
          split
          · change _ ≤ 0x9f
            omega
          · change _ ≤ 0xbf
            omega
      · have h0 := toNat_ofNat (show 0xf0 + n / 262144 < 256 by omega)
        have hsnd := toNat_ofNat (show 0x80 + n / 4096 % 64 < 256 by omega)
        have hc' := continues_of_toNat (b := UInt8.ofNat (0x80 + n / 64 % 64)) (by omega) (by omega)
        rw [if_neg h3, cons_append, decodeRune_long (by omega), cons_append,
          cons_append, cons_append,
          decodeLong_four (lead_four (by omega) (by omega)) _ _ hc' hc, h0, hsnd, hmid, hlast]
        · congr 1
          omega
        · rw [hsnd]
          split
          · change 0x90 ≤ _
            omega
          · exact Nat.le_add_right _ _
        · rw [hsnd]
          split
          · change _ ≤ 0x8f
            omega
          · change _ ≤ 0xbf
            omega


theorem encode_append (a b : List Rune) : encode (a ++ b) = encode a ++ encode b :=
  flatMap_append

theorem encodeValid_ne_nil (r : Rune) : encodeValid r ≠ [] := by
  unfold encodeValid
  split_ifs <;> exact cons_ne_nil _ _

theorem decode_encode_append (h : ∀ r ∈ rs, validRune r = true) (c : List UInt8) :
    decode (encode rs ++ c) = rs ++ decode c := by
  induction rs with
  | nil => rfl
  | cons r rs ih =>
    have hr := h r mem_cons_self
    have hd := decodeRune_encodeValid hr (encode rs ++ c)
    have hcons : encode (r :: rs) ++ c = encodeValid r ++ (encode rs ++ c) := by
      rw [encode, flatMap_cons, encodeRune, if_pos hr, append_assoc, encode]
    obtain ⟨b, bs, hb⟩ := exists_cons_of_ne_nil
      (append_ne_nil_of_left_ne_nil (encodeValid_ne_nil r) (encode rs ++ c))
    rw [hcons, hb, decode_cons, ← hb, hd, drop_left, cons_append,
      ih fun r' hr' => h r' (mem_cons_of_mem r hr')]

end Utf8
