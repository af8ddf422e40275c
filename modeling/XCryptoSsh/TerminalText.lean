import XCryptoSsh.Machine
import XCryptoSsh.Terminal

namespace XCryptoSsh
open Terminal Option
set_option autoImplicit true

open Go (Bytes)
open Utf8 (Rune runeError)

section Rel

variable {R : α → α → Prop} {S : β → β → Prop} {x y : Option α}

theorem rel_bind {f g : α → Option β} (h : Option.Rel R x y)
    (hfg : ∀ a b, x = some a → R a b → Option.Rel S (f a) (g b)) :
    Option.Rel S (x.bind f) (y.bind g) := by
  cases h with
  | none => exact .none
  | some h => exact hfg _ _ rfl h

theorem rel_map {f g : α → β} (h : Option.Rel R x y) (hfg : ∀ a b, R a b → S (f a) (g b)) :
    Option.Rel S (x.map f) (y.map g) := by
  cases h with
  | none => exact .none
  | some h => exact .some (hfg _ _ h)

theorem rel_repeatTimes {f : α → Option α} (hf : ∀ a b, R a b → Option.Rel R (f a) (f b))
    (h : R a b) (n : Nat) : Option.Rel R (repeatTimes f n a) (repeatTimes f n b) := by
  induction n generalizing a b with
  | zero => exact .some h
  | succ n ih =>
    apply rel_bind (hf a b h)
    intro a' b' _ h'
    exact ih h'

end Rel

theorem rel_writeLine {R : Terminal → Terminal → Prop}
    (htodo : ∀ t u, R t u → ∀ n, u.todo n = t.todo n)
    (hrow : ∀ t u data n, R t u →
      Option.Rel R ((t.queue data).advanceCursor n) ((u.queue data).advanceCursor n))
    (h : R t u) (text : List Rune) : Option.Rel R (t.writeLine text) (u.writeLine text) := by
  induction t, text using writeLine.induct generalizing u with
  | case1 t =>
    rw [writeLine_nil, writeLine_nil]
    exact .some h
  | case2 t text hl hneg =>
    rw [writeLine_row hl, writeLine_row hl, htodo t u h, if_pos hneg,
      if_pos hneg]
    exact .none
  | case3 t text hl hneg row =>
    rename_i hnone
    rw [writeLine_row hl, writeLine_row hl, htodo t u h, if_neg hneg,
      if_neg hneg]
    apply rel_bind (hrow t u row (visualLength row) h)
    intro a b ha hab
    cases hnone.symm.trans ha
  | case4 t text hl hneg row t' =>
    rename_i hsome ih
    rw [writeLine_row hl, writeLine_row hl, htodo t u h, if_neg hneg,
      if_neg hneg]
    apply rel_bind (hrow t u row (visualLength row) h)
    intro a b ha hab
    cases hsome.symm.trans ha
    exact ih hab

theorem sliceFrom_of_le {s : List α} (h : i ≤ s.length) :
    sliceFrom s (i : Nat) = some (s.drop i) := by
  rw [sliceFrom, if_pos ⟨Int.natCast_nonneg _, Int.ofNat_le.mpr h⟩, Int.toNat_natCast]

theorem sliceTo_of_le {s : List α} (h : i ≤ s.length) : sliceTo s (i : Nat) = some (s.take i) := by
  rw [sliceTo, if_pos ⟨Int.natCast_nonneg _, Int.ofNat_le.mpr h⟩, Int.toNat_natCast]

def Drawn (t t' : Terminal) : Prop :=
  t' = { t with
    cursorX := t'.cursorX
    cursorY := t'.cursorY
    maxLine := t'.maxLine
    outBuf := t'.outBuf }

theorem repeatTimes_induction {R : α → α → Prop} {f : α → Option α} {a b : α} (hrefl : ∀ a, R a a)
    (htrans : ∀ a b c, R a b → R b c → R a c) (hf : ∀ a b, f a = some b → R a b)
    (h : repeatTimes f n a = some b) : R a b := by
  induction n generalizing a with
  | zero =>
    cases h
    exact hrefl b
  | succ n ih =>
    obtain ⟨c, hc, hb⟩ := bind_eq_some_iff.mp h
    exact htrans a c b (hf a c hc) (ih hb)

namespace Drawn

theorem refl (t : Terminal) : Drawn t t := rfl

theorem trans (h : Drawn t u) (h' : Drawn u v) : Drawn t v := by
  rw [Drawn] at *
  rw [h', h]

theorem queue (t : Terminal) (data : List Rune) : Drawn t (t.queue data) := rfl

theorem setCursor (t : Terminal) (x y : Int) : Drawn t { t with cursorX := x, cursorY := y } := rfl

variable {t t' : Terminal}

theorem line (h : Drawn t t') : t'.line = t.line := by rw [h]

theorem echo (h : Drawn t t') : t'.echo = t.echo := by rw [h]

theorem remainder (h : Drawn t t') : t'.remainder = t.remainder := by rw [h]

theorem pos (h : Drawn t t') : t'.pos = t.pos := by rw [h]

theorem move (h : t.move up down left right = some t') : Drawn t t' := by
  unfold Terminal.move at h
  split at h
  · cases h
    exact queue _ _
  · cases h

theorem moveCursorToPos (h : t.moveCursorToPos i = some t') : Drawn t t' := by
  unfold Terminal.moveCursorToPos at h
  split at h
  · cases h
    exact refl t
  split at h
  · cases h
  · exact (setCursor t _ _).trans (move h)

theorem advanceCursor (h : t.advanceCursor n = some t') : Drawn t t' := by
  unfold Terminal.advanceCursor at h
  split at h
  · cases h
  · dsimp only at h
    split at h <;> cases h <;> rfl

theorem writeLine (h : t.writeLine text = some t') : Drawn t t' := by
  induction t, text using writeLine.induct with
  | case1 t =>
    rw [writeLine_nil] at h
    cases h
    exact refl t'
  | case2 t text hl hneg =>
    rw [writeLine_row hl, if_pos hneg] at h
    cases h
  | case3 t text hl hneg row =>
    rename_i hrow
    rw [writeLine_row hl, if_neg hneg, hrow] at h
    cases h
  | case4 t text hl hneg row u =>
    rename_i hrow ih
    rw [writeLine_row hl, if_neg hneg, hrow] at h
    exact ((queue t row).trans (advanceCursor hrow)).trans (ih h)

theorem clearRows {dir : Terminal → Option Terminal} (hdir : ∀ a b, dir a = some b → Drawn a b)
    (h : t.clearRows dir n = some t') : Drawn t t' := by
  apply repeatTimes_induction refl (fun _ _ _ => trans) _ h
  intro a b hab
  obtain ⟨c, hc, rfl⟩ := map_eq_some_iff.mp hab
  exact (hdir a c hc).trans (queue _ _)

end Drawn

theorem showPrompt_keeps {t t' : Terminal} (h : t.showPrompt = some t') :
    t'.echo = t.echo ∧ t'.remainder = t.remainder := by
  unfold showPrompt at h
  split at h
  · obtain ⟨u, hu, rfl⟩ := map_eq_some_iff.mp h
    exact ⟨(Drawn.writeLine hu).echo, (Drawn.writeLine hu).remainder⟩
  · cases h
    exact ⟨rfl, rfl⟩

end XCryptoSsh
