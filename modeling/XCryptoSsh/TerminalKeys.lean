import Mathlib.Data.List.Infix
import XCryptoSsh.Terminal

namespace XCryptoSsh
open List
set_option autoImplicit true

open Go (Bytes)
open Utf8 (Rune runeError)

def knownSequences : List (Bytes × Rune) :=
  [([27, 91, 65], keyUp), ([27, 91, 66], keyDown), ([27, 91, 67], keyRight),
    ([27, 91, 68], keyLeft), ([27, 91, 72], keyHome), ([27, 91, 70], keyEnd),
    ([27, 91, 49, 59, 51, 67], keyAltRight), ([27, 91, 49, 59, 51, 68], keyAltLeft),
    (pasteStart, keyPasteStart)]

theorem mem_of_letterKey (h : letterKey b = some k) : ([27, 91, b], k) ∈ knownSequences := by
  unfold letterKey at h
  split_ifs at h <;> rename_i hb <;> cases h <;> subst hb <;> simp [knownSequences]

theorem mem_of_altKey (h : altKey b = some k) :
    ([27, 91, 49, 59, 51, b], k) ∈ knownSequences := by
  unfold altKey at h
  split_ifs at h <;> rename_i hb <;> cases h <;> subst hb <;> simp [knownSequences]

theorem escapeKey_eq_some :
    escapeKey b = some (k, r) ↔ ∃ s, (s, k) ∈ knownSequences ∧ b = s ++ r := by
  constructor
  · intro h
    unfold escapeKey at h
    split at h
    · split at h
      · rename_i hk
        cases h
        exact ⟨_, mem_of_letterKey hk, rfl⟩
      split at h
      · obtain ⟨key, hk, he⟩ := Option.map_eq_some_iff.mp h
        cases he
        exact ⟨_, mem_of_altKey hk, rfl⟩
      · cases h
        exact ⟨pasteStart, by simp [knownSequences], rfl⟩
      · cases h
    · cases h
  · rintro ⟨s, hs, rfl⟩
    simp only [knownSequences, mem_cons, Prod.mk.injEq, not_mem_nil, or_false] at hs
    rcases hs with ⟨rfl, rfl⟩ | ⟨rfl, rfl⟩ | ⟨rfl, rfl⟩ | ⟨rfl, rfl⟩ | ⟨rfl, rfl⟩ | ⟨rfl, rfl⟩ |
      ⟨rfl, rfl⟩ | ⟨rfl, rfl⟩ | ⟨rfl, rfl⟩ <;> rfl

theorem afterSequence_eq_some : afterSequence b = some r ↔
    ∃ s e, (∀ x ∈ s, endsSequence x = false) ∧ endsSequence e = true ∧ b = s ++ e :: r := by
  induction b with
  | nil =>
    constructor
    · intro h
      cases h
    · rintro ⟨s, e, -, -, h⟩
      simp at h
  | cons x b ih =>
    rw [afterSequence]
    split
    · rename_i hx
      constructor
      · intro h
        cases h
        exact ⟨[], x, by simp, hx, rfl⟩
      rintro ⟨s, e, hs, he, h⟩
      cases s with
      | nil =>
        cases h
        rfl
      | cons y s =>
        cases h
        rw [hs x mem_cons_self] at hx
        cases hx
    · rename_i hx
      rw [ih]
      constructor
      · rintro ⟨s, e, hs, he, rfl⟩
        refine ⟨x :: s, e, ?_, he, rfl⟩
        intro y hy
        cases hy with
        | head => exact Bool.not_eq_true _ ▸ hx
        | tail _ hy => exact hs y hy
      · rintro ⟨s, e, hs, he, h⟩
        cases s with
        | nil =>
          cases h
          exact absurd he hx
        | cons y s =>
          cases h
          exact ⟨s, e, fun y hy => hs y (mem_cons_of_mem _ hy), he, rfl⟩

theorem afterSequence_eq_none : afterSequence b = none ↔ ∀ x ∈ b, endsSequence x = false := by
  induction b with
  | nil => simp [afterSequence]
  | cons x b ih =>
    rw [afterSequence, forall_mem_cons]
    split
    · rename_i hx
      simp [hx]
    rename_i hx
    rw [ih]
    simp [hx]

theorem afterSequence_append (h : afterSequence b = some r) (c : Bytes) :
    afterSequence (b ++ c) = some (r ++ c) := by
  obtain ⟨s, e, hs, he, rfl⟩ := afterSequence_eq_some.mp h
  exact afterSequence_eq_some.mpr ⟨s, e, hs, he, by simp⟩

def sequenceKeys (pasteActive : Bool) : List (Bytes × Rune) :=
  if pasteActive then [(pasteEnd, keyPasteEnd)] else knownSequences

def sequenceKey (s : Bytes) (pasteActive : Bool) : Rune :=
  match (sequenceKeys pasteActive).find? fun x => x.1 == s with
  | some x => x.2
  | none => keyUnknown

theorem afterSequence_known (h : (s, k) ∈ sequenceKeys p) (r : Bytes) :
    afterSequence (s ++ r) = some r := by
  have hall : ∀ p, ∀ x ∈ sequenceKeys p, afterSequence x.1 = some [] := by decide
  exact afterSequence_append (hall p _ h) r

theorem sequenceKey_known (h : (s, k) ∈ sequenceKeys p) : sequenceKey s p = k := by
  have hall : ∀ p, ∀ x ∈ sequenceKeys p, sequenceKey x.1 p = x.2 := by decide
  exact hall p _ h

theorem sequenceKey_unknown (h : ∀ k, (s, k) ∉ sequenceKeys p) : sequenceKey s p = keyUnknown := by
  unfold sequenceKey
  split
  · rename_i x hx
    have hs := find?_some hx
    have hmem := mem_of_find?_eq_some hx
    rw [← show x.1 = s from eq_of_beq hs] at h
    exact absurd hmem (h x.2)
  · rfl

theorem escapeSequence_known (h : (s, k) ∈ sequenceKeys p) (r : Bytes) :
    escapeSequence (s ++ r) p = (k, r) := by
  cases p with
  | false =>
    have hk : escapeKey (s ++ r) = some (k, r) := escapeKey_eq_some.mpr ⟨s, h, rfl⟩
    unfold escapeSequence
    simp only [Bool.false_eq_true, ↓reduceIte, hk]
  | true =>
    cases mem_singleton.mp h
    rfl

theorem escapeSequence_unknown (h : ∀ s k r, (s, k) ∈ sequenceKeys p → b ≠ s ++ r) :
    escapeSequence b p = match afterSequence b with
      | some rest => (keyUnknown, rest)
      | none => (runeError, b) := by
  cases p with
  | false =>
    have hk : escapeKey b = none := by
      cases hk : escapeKey b with
      | none => rfl
      | some x =>
        obtain ⟨s, hs, hb⟩ := escapeKey_eq_some.mp hk
        exact absurd hb (h s x.1 x.2 hs)
    unfold escapeSequence
    rw [if_neg Bool.false_ne_true, hk]
    exact if_neg fun h => Bool.false_ne_true h.1
  | true =>
    have hp : ¬ pasteEnd <+: b := fun ⟨r, hr⟩ => h pasteEnd keyPasteEnd r (by decide) hr.symm
    unfold escapeSequence
    rw [if_pos rfl]
    exact if_neg fun h => hp h.2

theorem escapeSequence_eq (b : Bytes) (p : Bool) :
    escapeSequence b p = match afterSequence b with
      | some r => (sequenceKey (b.take (b.length - r.length)) p, r)
      | none => (runeError, b) := by
  by_cases h : ∃ s k r, (s, k) ∈ sequenceKeys p ∧ b = s ++ r
  · obtain ⟨s, k, r, hs, rfl⟩ := h
    rw [escapeSequence_known hs, afterSequence_known hs]
    simp only [length_append, Nat.add_sub_cancel, take_left, sequenceKey_known hs]
  have hb : ∀ s k r, (s, k) ∈ sequenceKeys p → b ≠ s ++ r := fun s k r hs he =>
    h ⟨s, k, r, hs, he⟩
  rw [escapeSequence_unknown hb]
  split
  · rename_i r hr
    obtain ⟨s, e, -, -, rfl⟩ := afterSequence_eq_some.mp hr
    rw [sequenceKey_unknown]
    intro k hk
    apply hb _ k r hk
    have hlen : (s ++ e :: r).length - r.length = (s ++ [e]).length := by
      simp only [length_append, length_cons, length_nil]
      omega
    rw [hlen, show s ++ e :: r = (s ++ [e]) ++ r by simp, take_left]
  · rfl

theorem sequenceKey_ne (s : Bytes) (p : Bool) : sequenceKey s p ≠ runeError := by
  have hall : ∀ p, ∀ x ∈ sequenceKeys p, x.2 ≠ runeError := by decide
  unfold sequenceKey
  split
  · rename_i x hx
    exact hall p x (mem_of_find?_eq_some hx)
  · decide

theorem endsSequence_ascii (h : endsSequence b = true) : b < 0x80 := by
  simp only [endsSequence, Bool.or_eq_true, Bool.and_eq_true, decide_eq_true_eq,
    UInt8.le_iff_toNat_le, UInt8.lt_iff_toNat_lt, ← UInt8.toNat_inj, UInt8.reduceToNat] at h ⊢
  omega

theorem escapeSequence_append (h : escapeSequence b p = (k, r)) (hk : k ≠ runeError) (c : Bytes) :
    escapeSequence (b ++ c) p = (k, r ++ c) := by
  rw [escapeSequence_eq] at h ⊢
  cases ha : afterSequence b with
  | none =>
    rw [ha] at h
    cases h
    exact absurd rfl hk
  | some r' =>
    rw [ha] at h
    cases h
    have hlen : r.length ≤ b.length := by
      obtain ⟨s, e, -, -, rfl⟩ := afterSequence_eq_some.mp ha
      simp only [length_append, length_cons]
      omega
    rw [afterSequence_append ha]
    simp only [length_append]
    rw [show b.length + c.length - (r.length + c.length) = b.length - r.length by omega,
      take_append_of_le_length (Nat.sub_le _ _)]

theorem bytesToKey_append (h : bytesToKey b p = (k, r)) (hk : k ≠ runeError) (c : Bytes) :
    bytesToKey (b ++ c) p = (k, r ++ c) := by
  cases b with
  | nil =>
    cases h
    exact absurd rfl hk
  | cons b₀ bs =>
    unfold bytesToKey at h ⊢
    simp only [cons_append] at h ⊢
    split
    · rename_i hc
      rw [hc] at h
      cases h
      rfl
    rename_i hc
    rw [hc] at h
    dsimp only at h
    split at h
    · rename_i hb
      rw [if_pos hb]
      split at h
      · cases h
        have hd := Utf8.decodeRune_append hk c
        rw [cons_append] at hd
        rw [Utf8.fullRune_of_decode (hd ▸ hk), hd, if_pos rfl, ← cons_append,
          drop_append_of_le_length (Utf8.decodeRune_length _)]
      · cases h
        exact absurd rfl hk
    · rename_i hb
      rw [if_neg hb]
      exact escapeSequence_append h hk c

theorem controlKey_ne (h : controlKey b = some k) : k ≠ runeError := by
  unfold controlKey at h
  split_ifs at h <;> cases h <;> decide

theorem controlKey_ascii (h : controlKey b = some k) : b < 0x80 := by
  unfold controlKey at h
  split_ifs at h <;> simp_all

theorem length_of_not_fullRune (h : Utf8.fullRune b = false) : b.length < 4 := by
  cases b with
  | nil => exact Nat.zero_lt_succ _
  | cons b₀ bs =>
    rw [Utf8.fullRune] at h
    split at h
    · cases h
    cases hl : Utf8.lead b₀ with
    | none =>
      rw [hl] at h
      cases h
    | some l =>
      obtain ⟨n, lo, hi⟩ := l
      rw [hl] at h
      dsimp only at h
      split at h
      · cases h
      have hn := Utf8.lead_size hl
      rw [length_cons]
      omega

inductive KeyRead (p : Bool) : Bytes → Rune → Bytes → Prop where
  | control : controlKey x = some k → KeyRead p (x :: r) k r
  | rune : Utf8.fullRune (x :: bs) = true → KeyRead p (x :: bs) (Utf8.decodeRune (x :: bs)).1
      ((x :: bs).drop (Utf8.decodeRune (x :: bs)).2)
  | partRune : b.length < 4 → KeyRead p b runeError b
  | sequence : endsSequence e = true → KeyRead p (s ++ e :: r) (sequenceKey k p) r
  | partSequence : b.head? = some 27 → afterSequence b = none → KeyRead p b runeError b

theorem bytesToKey_cases (h : bytesToKey b p = (k, r)) : KeyRead p b k r := by
  cases b with
  | nil =>
    cases h
    exact .partRune (Nat.zero_lt_succ _)
  | cons x bs =>
    unfold bytesToKey at h
    dsimp only at h
    split at h
    · rename_i key hkey
      cases h
      split at hkey
      · cases hkey
      · exact .control hkey
    split at h
    · split at h
      · cases h
        exact .rune ‹_›
      · rename_i hf
        cases h
        exact .partRune (length_of_not_fullRune (Bool.not_eq_true _ ▸ hf))
    rename_i hx
    rw [escapeSequence_eq] at h
    split at h
    · rename_i hr
      cases h
      obtain ⟨s, e, -, he, hb⟩ := afterSequence_eq_some.mp hr
      rw [hb]
      exact .sequence he
    · rename_i hr
      cases h
      exact .partSequence (congrArg some (not_not.mp hx)) hr

theorem bytesToKey_length (h : bytesToKey b p = (k, r)) (hk : k ≠ runeError) :
    r.length < b.length := by
  cases bytesToKey_cases h with
  | control => exact Nat.lt_succ_self _
  | @rune x bs hf =>
    have hpos := Utf8.decodeRune_pos x bs
    simp only [length_drop, length_cons]
    omega
  | sequence he =>
    simp only [length_append, length_cons]
    omega
  | partRune | partSequence => exact absurd rfl hk

theorem clean_rest (hc : Utf8.Clean b) (h : bytesToKey b p = (k, r)) (hk : k ≠ runeError) :
    Utf8.Clean r := by
  cases bytesToKey_cases h with
  | control hx => exact hc.after (x := []) (controlKey_ascii hx)
  | rune hf => exact hc.drop
  | sequence he => exact hc.after (endsSequence_ascii he)
  | partRune | partSequence => exact absurd rfl hk

/-- In a text without errors, only a key that is not there yet gives `runeError`, and then nothing
is taken. -/
theorem unfinished_cases (hc : Utf8.Clean (b ++ c)) (h : bytesToKey b p = (runeError, r)) :
    r = b ∧ (b.length < 4 ∨ b.head? = some 27 ∧ afterSequence b = none) := by
  generalize hk : runeError = k at h
  cases bytesToKey_cases h with
  | control hx => exact absurd hk.symm (controlKey_ne hx)
  | @rune x bs hf =>
    have hne : (Utf8.decodeRune (x :: bs ++ c)).1 ≠ runeError := hc.first
    rw [Utf8.decodeRune_of_full hf hne] at hne
    exact absurd hk.symm hne
  | sequence => exact absurd hk.symm (sequenceKey_ne _ _)
  | partRune hb => exact ⟨rfl, .inl hb⟩
  | partSequence hx ha => exact ⟨rfl, .inr ⟨hx, ha⟩⟩

theorem bytesToKey_suffix (h : bytesToKey b p = (k, r)) : r <:+ b := by
  cases bytesToKey_cases h with
  | control => exact suffix_cons _ _
  | rune => exact drop_suffix _ _
  | @sequence e s =>
    exact ⟨s ++ [e], by simp⟩
  | partRune | partSequence => exact suffix_refl _

def sequenceLength (b : Bytes) : Nat :=
  match afterSequence b with
  | some r => b.length - r.length
  | none => b.length

def ShortEscapes (b : Bytes) : Prop :=
  ∀ s ∈ b.tails, s.head? = some 27 → sequenceLength s < 200

instance : Decidable (ShortEscapes b) := inferInstanceAs (Decidable (∀ _ ∈ _, _ → _))

theorem ShortEscapes.suffix (h : ShortEscapes b) (hr : r <:+ b) : ShortEscapes r := by
  intro s hs
  exact h s ((mem_tails _ _).mpr (((mem_tails _ _).mp hs).trans hr))

theorem length_le_sequenceLength (h : afterSequence b = none) (c : Bytes) :
    b.length ≤ sequenceLength (b ++ c) := by
  unfold sequenceLength
  split
  · rename_i r hr
    obtain ⟨s, e, hs, he, hb⟩ := afterSequence_eq_some.mp hr
    have hlen := congrArg length hb
    simp only [length_append, length_cons] at hlen ⊢
    by_contra hlt
    -- the end of the sequence would be in the first part
    have hget : b[s.length]? = some e := by
      have hb' := congrArg (·[s.length]?) hb
      simp only [getElem?_append_right (Nat.le_refl s.length), Nat.sub_self,
        getElem?_cons_zero] at hb'
      rw [getElem?_append_left (by omega)] at hb'
      exact hb'
    have hmem := mem_of_getElem? hget
    rw [afterSequence_eq_none.mp h e hmem] at he
    cases he
  · simp

theorem length_unfinished (hc : Utf8.Clean (b ++ c)) (hn : 4 ≤ n)
    (hs : ∀ s ∈ (b ++ c).tails, s.head? = some 27 → sequenceLength s < n)
    (h : bytesToKey b p = (runeError, r)) : b.length < n := by
  obtain ⟨-, hb | ⟨hx, ha⟩⟩ := unfinished_cases hc h
  · exact Nat.lt_of_lt_of_le hb hn
  · have hlt := hs (b ++ c) ((mem_tails _ _).mpr (suffix_refl _))
      (by rw [head?_append, hx]; rfl)
    exact Nat.lt_of_le_of_lt (length_le_sequenceLength ha c) hlt

end XCryptoSsh
