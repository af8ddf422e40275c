import XCryptoSsh.Utf8

namespace Vt100
open List Function
set_option autoImplicit true

open Utf8 (Rune validRune)

/-- A rune that is shown, in one cell. -/
def glyph (r : Rune) : Bool := validRune r && 32 ≤ r && !(127 ≤ r && r < 160)

theorem glyph_bounds {r : Nat} (h : glyph r = true) : 32 ≤ r ∧ validRune r = true := by
  unfold glyph at h
  rw [Bool.and_eq_true, Bool.and_eq_true, decide_eq_true_eq] at h
  exact ⟨h.1.2, h.1.1⟩

inductive Mode where
  | ground
  | escape
  | control (params : List Rune)
  deriving DecidableEq, Repr

/-- Rows are counted from the top; `wrap` says that the last column has been written. -/
structure Screen where
  width : Nat
  cells : Nat → Nat → Rune
  row : Nat
  col : Nat
  wrap : Bool
  mode : Mode

namespace Screen

def blank : Rune := 32

def put (s : Screen) (row col : Nat) (r : Rune) : Screen :=
  { s with cells := fun i j => if i = row ∧ j = col then r else s.cells i j }

def wrapped (s : Screen) : Screen :=
  if s.wrap then { s with row := s.row + 1, col := 0, wrap := false } else s

def print (s : Screen) (r : Rune) : Screen :=
  let s := s.wrapped
  let s := s.put s.row s.col r
  if s.col + 1 < s.width then { s with col := s.col + 1 } else { s with wrap := true }

/-- A control sequence: `A` to `D` move the cursor, `H` takes it home, `K` clears the rest of its
row and `2J` the screen. -/
def control (s : Screen) (params : List Rune) (final : Rune) : Screen :=
  if params = [] then
    if final = 65 then { s with row := s.row - 1, wrap := false }
    else if final = 66 then { s with row := s.row + 1, wrap := false }
    else if final = 67 then { s with col := min (s.col + 1) (s.width - 1), wrap := false }
    else if final = 68 then { s with col := s.col - 1, wrap := false }
    else if final = 72 then { s with row := 0, col := 0, wrap := false }
    else if final = 75 then
      { s with cells := fun i j => if i = s.row ∧ s.col ≤ j then blank else s.cells i j }
    else s
  else if params = [50] ∧ final = 74 then { s with cells := fun _ _ => blank }
  else s

def step (s : Screen) (r : Rune) : Screen :=
  match s.mode with
  | .ground =>
    if r = 27 then { s with mode := .escape }
    else if r = 13 then { s with col := 0, wrap := false }
    else if r = 10 then { s with row := s.row + 1, wrap := false }
    else if glyph r then s.print r
    else s
  | .escape => { s with mode := if r = 91 then .control [] else .ground }
  | .control params =>
    if 48 ≤ r ∧ r < 64 then { s with mode := .control (params ++ [r]) }
    else { s with mode := .ground }.control params r

def feed (s : Screen) (rs : List Rune) : Screen := rs.foldl step s

def display (s : Screen) (output : List UInt8) : Screen := s.feed (Utf8.decode output)

theorem feed_nil (s : Screen) : s.feed [] = s := rfl

theorem feed_append (s : Screen) (rs rs' : List Rune) : s.feed (rs ++ rs') = (s.feed rs).feed rs' :=
  foldl_append

theorem display_encode {s : Screen} (h : ∀ r ∈ rs, validRune r = true) :
    s.display (Utf8.encode rs) = s.feed rs := by
  have hd := Utf8.decode_encode_append h []
  rw [append_nil, Utf8.decode, append_nil] at hd
  rw [display, hd]

def cell (s : Screen) (i : Nat) : Rune := s.cells (i / s.width) (i % s.width)

def place (s : Screen) : Nat := s.row * s.width + s.col + if s.wrap then 1 else 0

/-- The cursor is in a column, a wrap is due only after the last one, and no sequence has begun. -/
structure Ready (s : Screen) : Prop where
  col : s.col < s.width
  wrap : s.wrap = true → s.col + 1 = s.width
  mode : s.mode = .ground

/-- The cursor is at the start of a row, and all is blank from there on. -/
structure Clear (s : Screen) : Prop where
  ready : s.Ready
  wrap : s.wrap = false
  col : s.col = 0
  cells : ∀ i, s.cell (s.row * s.width + i) = blank

def overlay (f : Nat → Rune) (n : Nat) (text : List Rune) (i : Nat) : Rune :=
  if n ≤ i then text.getD (i - n) (f i) else f i

theorem overlay_nil : overlay f n [] = f := by
  funext i
  unfold overlay
  split <;> rfl

theorem overlay_append : overlay (overlay f n a) (n + a.length) b = overlay f n (a ++ b) := by
  funext i
  unfold overlay
  by_cases h : n + a.length ≤ i
  · rw [if_pos h, if_pos (by omega), if_pos (by omega), getD_eq_getElem?_getD,
      getD_eq_getElem?_getD, getD_eq_getElem?_getD,
      getElem?_append_right (by omega), getElem?_eq_none (show a.length ≤ i - n by omega),
      show i - n - a.length = i - (n + a.length) by omega]
    rfl
  · rw [if_neg h]
    by_cases hn : n ≤ i
    · rw [if_pos hn, if_pos hn, getD_eq_getElem?_getD, getD_eq_getElem?_getD,
        getElem?_append_left (by omega)]
    · rw [if_neg hn, if_neg hn]

theorem overlay_singleton : overlay f n [r] = update f n r := by
  funext i
  unfold overlay
  by_cases h : i = n
  · subst h
    rw [if_pos (Nat.le_refl _), Nat.sub_self, update_self]
    rfl
  rw [update_of_ne h]
  split
  · obtain ⟨k, hk⟩ : ∃ k, i - n = k + 1 := ⟨i - n - 1, by omega⟩
    rw [hk]
    rfl
  · rfl

theorem overlay_blank (h : ∀ i, f (n + i) = blank) (i : Nat) :
    overlay f n text (n + i) = text.getD i blank := by
  rw [overlay, if_pos (Nat.le_add_right n i), Nat.add_sub_cancel_left, h]

variable {s : Screen}

theorem place_of_wrap_eq_false (h : s.wrap = false) : s.place = s.row * s.width + s.col := by
  rw [place, h]
  rfl

theorem wrapped_spec (h : s.Ready) : s.wrapped.Ready ∧ s.wrapped.wrap = false ∧
    s.wrapped.width = s.width ∧ s.wrapped.place = s.place ∧ s.wrapped.cells = s.cells := by
  unfold wrapped
  split
  · rename_i hw
    have hlast := h.wrap hw
    have hplace : (s.row + 1) * s.width + 0 + 0 = s.row * s.width + s.col + 1 := by
      rw [Nat.succ_mul]
      omega
    refine ⟨⟨?_, nofun, h.mode⟩, rfl, rfl, ?_, rfl⟩
    · exact Nat.lt_of_le_of_lt (Nat.zero_le _) h.col
    · rw [place, place, if_pos hw]
      exact hplace
  · rename_i hw
    exact ⟨h, Bool.eq_false_iff.mpr hw, rfl, rfl, rfl⟩

theorem div_mod_eq_iff {c w i r : Nat} (hc : c < w) : i / w = r ∧ i % w = c ↔ i = r * w + c := by
  constructor
  · rintro ⟨rfl, rfl⟩
    exact (Nat.div_add_mod' i w).symm
  rintro rfl
  rw [Nat.mul_comm, Nat.mul_add_div (Nat.zero_lt_of_lt hc), Nat.mul_add_mod,
    Nat.div_eq_of_lt hc, Nat.mod_eq_of_lt hc]
  exact ⟨rfl, rfl⟩

theorem cell_put (hc : s.col < s.width) (r : Rune) :
    (s.put s.row s.col r).cell = update s.cell (s.row * s.width + s.col) r := by
  funext i
  by_cases hi : i = s.row * s.width + s.col
  · rw [hi, update_self]
    exact if_pos ((div_mod_eq_iff hc).mpr rfl)
  · rw [update_of_ne hi]
    exact if_neg (mt (div_mod_eq_iff hc).mp hi)

structure Printed (s s' : Screen) (text : List Rune) : Prop where
  ready : s'.Ready
  width : s'.width = s.width
  place : s'.place = s.place + text.length
  cell : s'.cell = overlay s.cell s.place text
  wrap : s'.wrap = if text = [] then s.wrap else (s.place + text.length) % s.width == 0

theorem printed_print (h : s.Ready) (r : Rune) : Printed s (s.print r) [r] := by
  obtain ⟨hready, hwrap, hwidth, hplace, hcells⟩ := wrapped_spec h
  have hcell : s.wrapped.cell = s.cell := by
    funext i
    rw [cell, cell, hcells, hwidth]
  unfold print
  dsimp only
  generalize s.wrapped = u at *
  have hpl := place_of_wrap_eq_false hwrap
  have hput := cell_put hready.col r
  rw [← hpl, hcell, hplace, ← overlay_singleton] at hput
  have hcol := hready.col
  split
  · rename_i hlt
    have hplace' : u.row * u.width + (u.col + 1) = s.place + 1 := by omega
    have hnext : Screen.place { u.put u.row u.col r with col := u.col + 1 } = s.place + 1 := by
      rw [place_of_wrap_eq_false (s := { u.put u.row u.col r with col := u.col + 1 }) hwrap]
      exact hplace'
    refine ⟨⟨hlt, ?_, hready.mode⟩, hwidth, hnext, hput, ?_⟩
    · intro hw
      exact absurd (hwrap.symm.trans hw) Bool.false_ne_true
    have hmod : (s.place + 1) % s.width = u.col + 1 := by
      rw [← hplace', ← hwidth, Nat.mul_add_mod']
      exact Nat.mod_eq_of_lt hlt
    rw [if_neg (cons_ne_nil _ _), length_singleton, hmod]
    exact hwrap
  · rename_i hge
    have hlast : u.col + 1 = u.width := Nat.le_antisymm hcol (Nat.not_lt.mp hge)
    have hnext : Screen.place { u.put u.row u.col r with wrap := true } = s.place + 1 := by
      rw [← hplace, hpl]
      rfl
    refine ⟨⟨hcol, fun _ => hlast, hready.mode⟩, hwidth, hnext, hput, ?_⟩
    have hmod : (s.place + 1) % s.width = 0 := by
      rw [← hplace, hpl, Nat.add_assoc, hlast, ← Nat.succ_mul, hwidth, Nat.mul_mod_left]
    rw [if_neg (cons_ne_nil _ _), length_singleton, hmod]
    rfl

theorem Printed.trans (h : Printed s u a) (h' : Printed u v b) : Printed s v (a ++ b) where
  ready := h'.ready
  width := h'.width.trans h.width
  place := by rw [h'.place, h.place, length_append, Nat.add_assoc]
  cell := by rw [h'.cell, h.cell, h.place, overlay_append]
  wrap := by
    rw [h'.wrap, h.wrap, h.place, h.width]
    cases b with
    | nil => rw [if_pos rfl, append_nil]
    | cons r b =>
      rw [if_neg (cons_ne_nil r b),
        if_neg (append_ne_nil_of_right_ne_nil a (cons_ne_nil r b)), length_append,
        Nat.add_assoc]

theorem step_glyph {r : Nat} (h : s.Ready) (hr : glyph r = true) : s.step r = s.print r := by
  have hle := (glyph_bounds hr).1
  rw [step, h.mode]
  dsimp only
  rw [if_neg (show ¬ r = 27 by omega), if_neg (show ¬ r = 13 by omega),
    if_neg (show ¬ r = 10 by omega), if_pos hr]

theorem printed_feed (h : s.Ready) (htext : ∀ r ∈ text, glyph r = true) :
    Printed s (s.feed text) text := by
  induction text generalizing s with
  | nil => exact ⟨h, rfl, rfl, overlay_nil.symm, rfl⟩
  | cons r text ih =>
    have hr := printed_print h r
    have htail := ih hr.ready fun r' hr' => htext r' (mem_cons_of_mem r hr')
    rw [feed, foldl_cons, step_glyph h (htext r mem_cons_self)]
    exact hr.trans htail

theorem row_col (h : s.Ready) (hw : s.wrap = false) :
    s.row = s.place / s.width ∧ s.col = s.place % s.width := by
  obtain ⟨hrow, hcol⟩ := (div_mod_eq_iff h.col).mpr (place_of_wrap_eq_false hw)
  exact ⟨hrow.symm, hcol.symm⟩

theorem row_of_wrap (h : s.Ready) (hw : s.wrap = true) : s.row + 1 = s.place / s.width := by
  have hlast := h.wrap hw
  have hplace : s.place = (s.row + 1) * s.width := by
    rw [place, if_pos hw, Nat.succ_mul]
    omega
  rw [hplace, Nat.mul_div_cancel _ (Nat.zero_lt_of_lt h.col)]

def sequence (final : Rune) : List Rune := [27, 91, final]

theorem feed_sequence {r : Nat} (h : s.mode = .ground) (hr : 64 ≤ r) :
    s.feed (sequence r) = s.control [] r := by
  have hs : ({ s with mode := .ground } : Screen) = s := by
    rw [← h]
  have hparam : ¬ (48 ≤ r ∧ r < 64) := by omega
  simp only [feed, sequence, foldl_cons, foldl_nil, step, h, if_pos]
  exact (if_neg hparam).trans (by rw [hs])

theorem feed_repeated {r : Nat} (g : Nat → Screen) (hg : ∀ k, (g k).mode = .ground) (hr : 64 ≤ r)
    (h : ∀ k < n, (g k).control [] r = g (k + 1)) :
    (g 0).feed (replicate n (sequence r)).flatten = g n := by
  induction n with
  | zero => rfl
  | succ n ih =>
    rw [replicate_succ', flatten_append, feed_append, ih fun k hk => h k (Nat.lt_succ_of_lt hk),
      flatten_singleton, feed_sequence (hg n) hr, h n (Nat.lt_succ_self n)]

section

variable (h : s.mode = .ground)

include h

theorem feed_up (hw : s.wrap = false) (n : Nat) :
    s.feed (replicate n (sequence 65)).flatten = { s with row := s.row - n } := by
  refine feed_repeated (fun k => { s with row := s.row - k }) (fun _ => h) (by decide) fun k _ => ?_
  exact congrArg (fun w => ({ s with row := s.row - (k + 1), wrap := w } : Screen)) hw.symm

theorem feed_down (hw : s.wrap = false) (n : Nat) :
    s.feed (replicate n (sequence 66)).flatten = { s with row := s.row + n } := by
  refine feed_repeated (fun k => { s with row := s.row + k }) (fun _ => h) (by decide) fun k _ => ?_
  exact congrArg (fun w => ({ s with row := s.row + (k + 1), wrap := w } : Screen)) hw.symm

theorem feed_left (hw : s.wrap = false) (n : Nat) :
    s.feed (replicate n (sequence 68)).flatten = { s with col := s.col - n } := by
  refine feed_repeated (fun k => { s with col := s.col - k }) (fun _ => h) (by decide) fun k _ => ?_
  exact congrArg (fun w => ({ s with col := s.col - (k + 1), wrap := w } : Screen)) hw.symm

theorem feed_right (hw : s.wrap = false) (hn : s.col + n < s.width) :
    s.feed (replicate n (sequence 67)).flatten = { s with col := s.col + n } := by
  refine feed_repeated (fun k => { s with col := s.col + k }) (fun _ => h) (by decide) fun k hk =>
    ?_
  have hmin : min (s.col + k + 1) (s.width - 1) = s.col + (k + 1) := by omega
  change { s with col := min (s.col + k + 1) (s.width - 1), wrap := false } = _
  rw [hmin, hw]

theorem feed_crlf : s.feed [13, 10] = { s with row := s.row + 1, col := 0, wrap := false } := by
  simp [feed, step, h]

theorem feed_clear : s.feed ([27, 91, 50, 74] ++ sequence 72) =
      { s with cells := fun _ _ => blank, row := 0, col := 0, wrap := false } := by
  simp [feed, sequence, step, control, h]

end

end Screen

end Vt100
