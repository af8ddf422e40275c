import XCryptoSsh.Screen
import XCryptoSsh.TerminalSessions

namespace XCryptoSsh
set_option autoImplicit true

open Go (Bytes)
open Utf8 (Rune runeError validRune)
open Vt100 (Screen glyph glyph_bounds)
open Machine List Option

def Terminal.spot (t : Terminal) : Nat :=
  t.cursorY.toNat * t.termWidth.toNat + t.cursorX.toNat

structure Sits (p : Nat) (w x y : Int) (s : Screen) : Prop where
  ready : s.Ready
  width : (s.width : Int) = w
  wrap : s.wrap = false
  row : (s.row : Int) = p + y
  col : (s.col : Int) = x

abbrev At (p : Nat) (t : Terminal) (s : Screen) : Prop :=
  Sits p t.termWidth t.cursorX t.cursorY s

theorem At.place {t : Terminal} (h : At p t s) (hs : OnScreen t) :
    s.place = p * s.width + t.spot := by
  have hrow := h.row
  have hy := hs.2.2
  have hrow' : s.row = p + t.cursorY.toNat := by omega
  have hwidth : t.termWidth.toNat = s.width := by rw [← h.width, Int.toNat_natCast]
  have hcol : t.cursorX.toNat = s.col := by rw [← h.col, Int.toNat_natCast]
  rw [Screen.place_of_wrap_eq_false h.wrap, Terminal.spot, hwidth, hcol, hrow', Nat.add_mul,
    Nat.add_assoc]

def Painted (t t' : Terminal) (n : Nat) (text : List Rune) : Prop :=
  ∃ rs, (∀ r ∈ rs, validRune r = true) ∧ t'.outBuf = t.outBuf ++ Utf8.encode rs ∧
    ∀ p s, At p t s →
      At p t' (s.feed rs) ∧ (s.feed rs).cell = Screen.overlay s.cell (p * s.width + n) text ∧
        (s.feed rs).width = s.width

namespace Painted

variable {t t' u : Terminal}

theorem refl (t : Terminal) (n : Nat) : Painted t t n [] :=
  ⟨[], nofun, (append_nil _).symm, fun _ _ h => ⟨h, Screen.overlay_nil.symm, rfl⟩⟩

theorem trans (h : Painted t u n a) (h' : Painted u t' (n + a.length) b) :
    Painted t t' n (a ++ b) := by
  obtain ⟨rs, hv, ho, hf⟩ := h
  obtain ⟨rs', hv', ho', hf'⟩ := h'
  refine ⟨rs ++ rs', ?_, ?_, ?_⟩
  · intro r hr
    exact (mem_append.mp hr).elim (hv r) (hv' r)
  · rw [ho', ho, append_assoc, Utf8.encode_append]
  intro p s hs
  obtain ⟨hat, hcell, hwidth⟩ := hf p s hs
  obtain ⟨hat', hcell', hwidth'⟩ := hf' p _ hat
  rw [Screen.feed_append]
  refine ⟨hat', ?_, hwidth'.trans hwidth⟩
  rw [hcell', hcell, hwidth, ← Nat.add_assoc, Screen.overlay_append]

theorem then_move (h : Painted t u n a) (h' : ∀ m, Painted u t' m []) : Painted t t' n a := by
  have hall := h.trans (h' (n + a.length))
  rwa [append_nil] at hall

theorem after_move (h : ∀ m, Painted t u m []) (h' : Painted u t' n a) : Painted t t' n a :=
  (h n).trans h'

end Painted

structure Prints (t t' : Terminal) (text : List Rune) : Prop where
  painted : Painted t t' t.spot text
  spot : t'.spot = t.spot + text.length
  screen : OnScreen t'

structure Goes (t t' : Terminal) (n : Nat) : Prop where
  painted : ∀ m, Painted t t' m []
  spot : t'.spot = n
  screen : OnScreen t'

theorem Prints.trans {t u t' : Terminal} (h : Prints t u a) (h' : Prints u t' b) :
    Prints t t' (a ++ b) where
  painted := h.painted.trans (h.spot ▸ h'.painted)
  spot := by rw [h'.spot, h.spot, length_append, Nat.add_assoc]
  screen := h'.screen

theorem Prints.refl (hs : OnScreen t) : Prints t t [] := ⟨.refl t _, rfl, hs⟩

def Framed (t t' : Terminal) : Prop :=
  t'.prompt = t.prompt ∧ t'.echo = t.echo ∧ t'.c = t.c ∧ t'.termWidth = t.termWidth

theorem Framed.trans {t u t' : Terminal} (h : Framed t u) (h' : Framed u t') : Framed t t' :=
  ⟨h'.1.trans h.1, h'.2.1.trans h.2.1, h'.2.2.1.trans h.2.2.1, h'.2.2.2.trans h.2.2.2⟩

theorem Drawn.framed {t t' : Terminal} (h : Drawn t t') : Framed t t' := by
  rw [h]
  exact ⟨rfl, rfl, rfl, rfl⟩

/-- The cursor is on the screen, the line is echoed, and the prompt is made of glyphs. -/
structure Legible (t : Terminal) : Prop where
  screen : OnScreen t
  echo : t.echo = true
  prompt : ∀ r ∈ t.prompt, glyph r = true

theorem Legible.framed (hv : Legible t) (hf : Framed t u) (hs : OnScreen u) : Legible u :=
  ⟨hs, hf.2.1.trans hv.echo, hf.1 ▸ hv.prompt⟩

section Drawing

variable {t t' : Terminal}

theorem visualLength_eq (h : ∀ r ∈ text, glyph r = true) : visualLength text = text.length := by
  unfold visualLength
  induction text with
  | nil => rfl
  | cons r text ih =>
    have hne : ¬ r = 27 := by
      intro he
      have hr := (glyph_bounds (h r mem_cons_self)).1
      rw [he] at hr
      exact absurd hr (by decide)
    rw [visualFrom, if_neg Bool.false_ne_true, if_neg hne,
      ih fun r' hr' => h r' (mem_cons_of_mem r hr'), length_cons]

theorem validRune_moves : ∀ r ∈ (replicate a (vt100 'A') ++ replicate b (vt100 'B') ++
    replicate c (vt100 'D') ++ replicate d (vt100 'C')).flatten, validRune r = true := by
  have hone : ∀ l : Char, validRune l.toNat = true → ∀ n, ∀ r ∈ (replicate n (vt100 l)).flatten,
      validRune r = true := by
    intro l hl n r hr
    obtain ⟨v, hv, hr⟩ := mem_flatten.mp hr
    rw [eq_of_mem_replicate hv] at hr
    rcases mem_cons.mp hr with rfl | hr
    · rfl
    rcases mem_cons.mp hr with rfl | hr
    · rfl
    · rw [mem_singleton.mp hr, hl]
  intro r hr
  rw [flatten_append, flatten_append, flatten_append, mem_append,
    mem_append, mem_append] at hr
  rcases hr with ((hr | hr) | hr) | hr
  · exact hone 'A' rfl a r hr
  · exact hone 'B' rfl b r hr
  · exact hone 'D' rfl c r hr
  · exact hone 'C' rfl d r hr

theorem feed_moves {s : Screen} (h : s.Ready) (hw : s.wrap = false) (a b : Nat)
    (hcol : s.col - c + d < s.width) :
    s.feed (replicate a (vt100 'A') ++ replicate b (vt100 'B') ++
      replicate c (vt100 'D') ++ replicate d (vt100 'C')).flatten =
    { s with row := s.row - a + b, col := s.col - c + d } := by
  have hdown := Screen.feed_down (s := { s with row := s.row - a }) h.mode hw b
  have hleft := Screen.feed_left (s := { s with row := s.row - a + b }) h.mode hw c
  have hright := Screen.feed_right (s := { s with row := s.row - a + b, col := s.col - c }) h.mode
    hw hcol
  dsimp only at hdown hleft hright
  change s.feed (replicate a (Screen.sequence 65) ++ replicate b (Screen.sequence 66) ++
    replicate c (Screen.sequence 68) ++ replicate d (Screen.sequence 67)).flatten = _
  rw [flatten_append, flatten_append, flatten_append, Screen.feed_append,
    Screen.feed_append, Screen.feed_append, Screen.feed_up h.mode hw a, hdown, hleft, hright]

theorem goes_move {a b c d x y : Nat} (hx : (x : Int) < t.termWidth)
    (ha : (a : Int) ≤ t.cursorY) (hy' : t.cursorY - a + b = y) (hc : (c : Int) ≤ t.cursorX)
    (hx' : t.cursorX - c + d = x)
    (h : ({ t with cursorX := x, cursorY := y } : Terminal).move a b c d = some t') :
    Goes t t' (y * t.termWidth.toNat + x) := by
  unfold Terminal.move at h
  rw [if_pos ⟨Int.natCast_nonneg _, Int.natCast_nonneg _, Int.natCast_nonneg _,
    Int.natCast_nonneg _⟩] at h
  cases h
  refine ⟨?_, rfl, Int.natCast_nonneg _, hx, Int.natCast_nonneg _⟩
  intro n
  refine ⟨_, validRune_moves, rfl, ?_⟩
  intro p s hat
  have hrow := hat.row
  have hcol := hat.col
  have hwidth := hat.width
  have hcol' : s.col - c + d = x := by omega
  have hrow' : s.row - a + b = p + y := by omega
  have hfeed := feed_moves hat.ready hat.wrap a b (show s.col - c + d < s.width by omega)
  rw [hcol', hrow'] at hfeed
  rw [Int.toNat_natCast, Int.toNat_natCast, Int.toNat_natCast, Int.toNat_natCast, hfeed]
  have hready : Screen.Ready { s with row := p + y, col := x } := by
    refine ⟨?_, ?_, hat.ready.mode⟩
    · change x < s.width
      omega
    · intro hw
      exact absurd (hat.wrap.symm.trans hw) Bool.false_ne_true
  exact ⟨⟨hready, hwidth, hat.wrap, Int.natCast_add p y, rfl⟩, Screen.overlay_nil.symm, rfl⟩

theorem exists_diff (hz : 0 ≤ z) (y : Nat) : ∃ a b : Nat,
    (if (y : Int) < z then z - y else 0) = a ∧ (if (y : Int) > z then y - z else 0) = b ∧
      (a : Int) ≤ z ∧ z - a + b = y := by
  refine ⟨(z - y).toNat, (y - z).toNat, ?_, ?_, ?_, ?_⟩
  · split <;> omega
  · split <;> omega
  · omega
  · omega

theorem goes_moveCursorToPos (hv : Legible t) {pos : Nat} (h : t.moveCursorToPos pos = some t') :
    Goes t t' (t.prompt.length + pos) := by
  have hs := hv.screen
  obtain ⟨w, hw⟩ := Int.eq_ofNat_of_zero_le (Int.le_trans hs.1 (Int.le_of_lt hs.2.1))
  have hpos : 0 < w := by
    have hx := hs.1
    have hlt := hs.2.1
    omega
  have hy : ((visualLength t.prompt : Int) + pos).tdiv t.termWidth =
      ((t.prompt.length + pos) / w : Nat) := by
    rw [visualLength_eq hv.prompt, hw]
    exact (Int.ofNat_tdiv _ _).symm
  have hx : ((visualLength t.prompt : Int) + pos).tmod t.termWidth =
      ((t.prompt.length + pos) % w : Nat) := by
    rw [visualLength_eq hv.prompt, hw]
    exact (Int.ofNat_tmod _ _).symm
  obtain ⟨a, b, ha, hb, hale, hyab⟩ := exists_diff hs.2.2 ((t.prompt.length + pos) / w)
  obtain ⟨c, d, hc, hd, hcle, hxcd⟩ := exists_diff hs.1 ((t.prompt.length + pos) % w)
  unfold Terminal.moveCursorToPos at h
  rw [if_neg (by rw [hv.echo]; decide), if_neg (by omega)] at h
  dsimp only at h
  rw [hy, hx, ha, hb, hc, hd] at h
  have hmod : (((t.prompt.length + pos) % w : Nat) : Int) < t.termWidth := by
    have hlt := Nat.mod_lt (t.prompt.length + pos) hpos
    omega
  have hgoes := goes_move hmod hale hyab hcle hxcd h
  rwa [hw, Int.toNat_natCast, Nat.div_add_mod'] at hgoes

theorem goes_back {u : Terminal} {pos : Nat} (hv : Legible t) (hf : Framed t u) (hs : OnScreen u)
    (h : { u with line := l, pos := i }.moveCursorToPos pos = some t') :
    Goes u t' (t.prompt.length + pos) := by
  have hgoes := goes_moveCursorToPos (t := { u with line := l, pos := i }) (hv.framed hf hs) h
  rw [← hf.1]
  exact ⟨hgoes.painted, hgoes.spot, hgoes.screen⟩

theorem advanceCursor_eq (h : t.advanceCursor n = some t') :
    t'.cursorX = (t.cursorX + n).tmod t.termWidth ∧
      t'.cursorY = t.cursorY + (t.cursorX + n).tdiv t.termWidth ∧ t'.termWidth = t.termWidth ∧
      t'.outBuf = t.outBuf ++ Utf8.encode (if n > 0 ∧ t'.cursorX = 0 then [13, 10] else []) := by
  unfold Terminal.advanceCursor at h
  split at h
  · cases h
  dsimp only at h
  split at h
  · rename_i hc
    cases h
    rw [if_pos hc]
    exact ⟨rfl, rfl, rfl, rfl⟩
  · rename_i hc
    cases h
    rw [if_neg hc]
    exact ⟨rfl, rfl, rfl, (append_nil _).symm⟩

theorem validRune_crlf : ∀ r ∈ ([13, 10] : List Rune), validRune r = true := by decide

theorem prints_advance (hs : OnScreen t) (htext : ∀ r ∈ text, glyph r = true)
    (h : (t.queue text).advanceCursor text.length = some t') :
    Prints t t' text := by
  obtain ⟨w, hw⟩ := Int.eq_ofNat_of_zero_le (Int.le_trans hs.1 (Int.le_of_lt hs.2.1))
  obtain ⟨x, hx⟩ := Int.eq_ofNat_of_zero_le hs.1
  obtain ⟨y, hy⟩ := Int.eq_ofNat_of_zero_le hs.2.2
  have hlt : x < w := by
    have hlt := hs.2.1
    omega
  obtain ⟨hx', hy', hw', hout⟩ := advanceCursor_eq h
  change t'.cursorX = (t.cursorX + text.length).tmod t.termWidth at hx'
  change t'.cursorY = t.cursorY + (t.cursorX + text.length).tdiv t.termWidth at hy'
  change t'.termWidth = t.termWidth at hw'
  rw [hx, hw] at hx'
  rw [hx, hw, hy] at hy'
  replace hx' : t'.cursorX = ((x + text.length) % w : Nat) := hx'.trans (Int.ofNat_tmod _ _).symm
  replace hy' : t'.cursorY = (y + (x + text.length) / w : Nat) := by
    rw [hy', Int.natCast_add y, Int.ofNat_tdiv]
    rfl
  have hspot : t.spot = y * w + x := by
    rw [Terminal.spot, hw, hx, hy]
    rfl
  have hmod := Nat.mod_lt (x + text.length) (Nat.zero_lt_of_lt hlt)
  have hdiv := Nat.div_add_mod' (x + text.length) w
  refine ⟨?_, ?_, ?_⟩
  · refine ⟨text ++ if (text.length : Int) > 0 ∧ t'.cursorX = 0 then [13, 10] else [], ?_, ?_, ?_⟩
    · intro r hr
      rcases mem_append.mp hr with hr | hr
      · exact (glyph_bounds (htext r hr)).2
      split at hr
      · exact validRune_crlf r hr
      · cases hr
    · rw [hout, Utf8.encode_append, ← append_assoc]
      rfl
    · intro p s hat
      have hwidth : s.width = w := by
        have hwidth := hat.width
        omega
      have hplace : s.place + text.length = (p + y) * w + (x + text.length) := by
        rw [hat.place hs, hspot, hwidth, Nat.add_mul]
        omega
      have hprinted := Screen.printed_feed hat.ready htext
      have hready := hprinted.ready
      have hrow : (s.place + text.length) / w = p + (y + (x + text.length) / w) := by
        rw [hplace, Nat.mul_comm, Nat.mul_add_div (Nat.zero_lt_of_lt hlt), Nat.add_assoc]
      have hcol : (s.place + text.length) % w = (x + text.length) % w := by
        rw [hplace, Nat.mul_add_mod']
      have hcell := hprinted.cell
      rw [hat.place hs] at hcell
      rw [Screen.feed_append]
      generalize s.feed text = u at *
      by_cases hc : (text.length : Int) > 0 ∧ t'.cursorX = 0
      · have hne : text ≠ [] := by
          intro he
          rw [he] at hc
          exact absurd hc.1 (by decide)
        have hz : (x + text.length) % w = 0 := by
          have hz := hc.2
          omega
        have hwrap : u.wrap = true := by
          rw [hprinted.wrap, if_neg hne, hwidth, hcol, hz]
          rfl
        have hurow := Screen.row_of_wrap hready hwrap
        rw [hprinted.place, hprinted.width, hwidth, hrow] at hurow
        rw [if_pos hc, Screen.feed_crlf hready.mode]
        refine ⟨⟨⟨?_, nofun, hready.mode⟩, ?_, rfl, ?_, hc.2.symm⟩, hcell, hprinted.width⟩
        · exact Nat.lt_of_le_of_lt (Nat.zero_le _) hready.col
        · rw [← hw'] at hw
          rw [hw, ← hwidth, ← hprinted.width]
        · rw [hy', ← Int.natCast_add, ← hurow]
      · rw [if_neg hc, Screen.feed_nil]
        have hwrap : u.wrap = false := by
          rw [hprinted.wrap]
          split
          · exact hat.wrap
          rename_i hne
          have hpos := length_pos_iff.mpr hne
          rw [hwidth, hcol]
          apply beq_false_of_ne
          intro hz
          exact hc ⟨by omega, by rw [hx', hz]; rfl⟩
        obtain ⟨hurow, hucol⟩ := Screen.row_col hready hwrap
        rw [hprinted.place, hprinted.width, hwidth] at hurow hucol
        refine ⟨⟨hready, ?_, hwrap, ?_, ?_⟩, hcell, hprinted.width⟩
        · rw [hprinted.width, hw', hat.width]
        · rw [hurow, hrow, hy', Int.natCast_add p]
        · rw [hucol, hcol, hx']
  · rw [hspot, Terminal.spot, hw', hw, hx', hy', Int.toNat_natCast, Int.toNat_natCast,
      Int.toNat_natCast, Nat.add_mul]
    omega
  · refine ⟨?_, ?_, ?_⟩
    · rw [hx']
      exact Int.natCast_nonneg _
    · rw [hx', hw', hw]
      exact Int.ofNat_lt.mpr hmod
    · rw [hy']
      exact Int.natCast_nonneg _

theorem prints_writeLine (hs : OnScreen t) (htext : ∀ r ∈ text, glyph r = true)
    (h : t.writeLine text = some t') : Prints t t' text := by
  induction t, text using Terminal.writeLine.induct with
  | case1 t =>
    rw [Terminal.writeLine_nil] at h
    cases h
    exact .refl hs
  | case2 t text hl hneg =>
    rw [Terminal.writeLine_row hl, if_pos hneg] at h
    cases h
  | case3 t text hl hneg row =>
    rename_i hrow
    rw [Terminal.writeLine_row hl, if_neg hneg, hrow] at h
    cases h
  | case4 t text hl hneg row u =>
    rename_i hrow ih
    have hglyphs : ∀ r ∈ row, glyph r = true := fun r hr => htext r (mem_of_mem_take hr)
    have hrest : ∀ r ∈ text.drop (t.todo text.length).toNat, glyph r = true :=
      fun r hr => htext r (mem_of_mem_drop hr)
    rw [Terminal.writeLine_row hl, if_neg hneg, hrow] at h
    rw [visualLength_eq hglyphs] at hrow
    have hprints := prints_advance hs hglyphs hrow
    have hall := hprints.trans (ih hprints.screen hrest h)
    rwa [take_append_drop] at hall

theorem prints_repeatTimes {f : Terminal → Option Terminal}
    (hf : ∀ u u', OnScreen u → f u = some u' → Prints u u' space) (hs : OnScreen t)
    (h : repeatTimes f n t = some t') : Prints t t' (replicate n Screen.blank) := by
  induction n generalizing t with
  | zero =>
    cases h
    exact .refl hs
  | succ n ih =>
    obtain ⟨u, hu, hut⟩ := bind_eq_some_iff.mp h
    have hone := hf t u hs hu
    exact hone.trans (ih hone.screen hut)

end Drawing

/-- From row `p` on the screen shows the prompt, the line and then blanks, with the cursor in the
line where the terminal has it. -/
structure Shown (p : Nat) (t : Terminal) (s : Screen) : Prop where
  at_ : At p t s
  screen : OnScreen t
  spot : (t.spot : Int) = t.prompt.length + t.pos
  cells : ∀ i, s.cell (p * s.width + i) = (t.prompt ++ t.line).getD i Screen.blank

structure Redrawn (t t' : Terminal) : Prop where
  frame : Framed t t'
  screen : OnScreen t'
  spot : (t'.spot : Int) = t'.prompt.length + t'.pos
  line : ∃ k text m, k ≤ t.line.length ∧ t.line.length ≤ k + text.length + m ∧
    t'.line = t.line.take k ++ text ∧
    Painted t t' (t.prompt.length + k) (text ++ replicate m Screen.blank)

theorem overlay_line (hk : k ≤ line.length) (hm : line.length ≤ k + text.length + m)
    (h : ∀ i, f (n + i) = (prompt ++ line).getD i Screen.blank) (i : Nat) :
    Screen.overlay f (n + (prompt.length + k)) (text ++ replicate m Screen.blank) (n + i) =
      (prompt ++ (line.take k ++ text)).getD i Screen.blank := by
  have hlen : (line.take k).length = k := length_take_of_le hk
  unfold Screen.overlay
  rw [h, getD_eq_getElem?_getD, getD_eq_getElem?_getD, getD_eq_getElem?_getD]
  by_cases hi : i < prompt.length + k
  · rw [if_neg (by omega)]
    by_cases hp : i < prompt.length
    · rw [getElem?_append_left hp, getElem?_append_left hp]
    · rw [getElem?_append_right (by omega), getElem?_append_right (by omega),
        getElem?_append_left (by omega), getElem?_take_of_lt (by omega)]
  · rw [if_pos (by omega), getElem?_append_right (show prompt.length ≤ i by omega),
      getElem?_append_right (show prompt.length ≤ i by omega),
      getElem?_append_right (show (line.take k).length ≤ i - prompt.length by omega), hlen]
    have hj : n + i - (n + (prompt.length + k)) = i - prompt.length - k := by omega
    rw [hj]
    generalize hj : i - prompt.length - k = j
    by_cases htext : j < text.length
    · rw [getElem?_append_left htext, getElem?_eq_getElem htext]
      rfl
    rw [getElem?_append_right (by omega), getElem?_eq_none (show text.length ≤ j by omega)]
    by_cases hm' : j - text.length < m
    · rw [getElem?_replicate_of_lt hm']
      rfl
    rw [getElem?_eq_none (by rw [length_replicate]; omega),
      getElem?_eq_none (show line.length ≤ i - prompt.length by omega)]
    rfl

theorem Shown.redrawn {t t' : Terminal} (h : Shown p t s) (h' : Redrawn t t') :
    ∃ rs, (∀ r ∈ rs, validRune r = true) ∧ t'.outBuf = t.outBuf ++ Utf8.encode rs ∧
      Shown p t' (s.feed rs) := by
  obtain ⟨k, text, m, hk, hm, hline, rs, hv, ho, hf⟩ := h'.line
  obtain ⟨hat, hcell, hwidth⟩ := hf p s h.at_
  refine ⟨rs, hv, ho, hat, h'.screen, h'.spot, ?_⟩
  intro i
  rw [hcell, hwidth, hline, h'.frame.1]
  exact overlay_line hk hm h.cells i

theorem Drawn.prompt {t t' : Terminal} (h : Drawn t t') : t'.prompt = t.prompt := h.framed.1

section Redrawing

variable {t t' : Terminal}

theorem redrawn_refl (hs : OnScreen t) (hspot : (t.spot : Int) = t.prompt.length + t.pos) :
    Redrawn t t :=
  ⟨⟨rfl, rfl, rfl, rfl⟩, hs, hspot, t.line.length, [], 0, Nat.le_refl _, Nat.le_refl _, by simp,
    .refl t _⟩

theorem redrawn_goTo (hv : Legible t) (hi : 0 ≤ i)
    (h : { t with pos := i }.moveCursorToPos i = some t') : Redrawn t t' := by
  obtain ⟨i, rfl⟩ := Int.eq_ofNat_of_zero_le hi
  have hgoes := goes_moveCursorToPos (t := { t with pos := i }) ⟨hv.screen, hv.echo, hv.prompt⟩ h
  have hd := Drawn.moveCursorToPos h
  have hp : t'.prompt = t.prompt := hd.prompt
  have hi : t'.pos = i := hd.pos
  refine ⟨hd.framed, hgoes.screen, ?_, t.line.length, [], 0, Nat.le_refl _, Nat.le_refl _, ?_,
    hgoes.painted _⟩
  · rw [hgoes.spot, hp, hi, Int.natCast_add]
  · rw [take_length, append_nil]
    exact hd.line

theorem redrawn_of_prints {u v : Terminal} {i k : Nat} (hgo : ∀ m, Painted t u m [])
    (hspot : u.spot = t.prompt.length + k)
    (hprints : Prints u v (text ++ replicate m Screen.blank))
    (hback : Goes v t' (t.prompt.length + i)) (hframe : Framed t t') (hi : t'.pos = i)
    (hk : k ≤ t.line.length) (hm : t.line.length ≤ k + text.length + m)
    (hline : t'.line = t.line.take k ++ text) : Redrawn t t' := by
  have hpainted := hprints.painted
  rw [hspot] at hpainted
  refine ⟨hframe, hback.screen, ?_, k, text, m, hk, hm, hline, ?_⟩
  · rw [hback.spot, hframe.1, hi, Int.natCast_add]
  · exact (Painted.after_move hgo hpainted).then_move hback.painted

theorem glyph_space : ∀ r ∈ space, glyph r = true := by decide

section

variable (hv : Legible t) {text : List Rune} {i : Nat} (htext : ∀ r ∈ text, glyph r = true) (h :
  t.setLine text i = some t')

include hv htext h

theorem painted_setLine : Painted t t' t.prompt.length
        (text ++ replicate (t.line.length - text.length) Screen.blank) ∧
      t'.spot = t.prompt.length + i ∧ OnScreen t' ∧ Framed t t' ∧ t'.line = text ∧ t'.pos = i := by
  unfold Terminal.setLine at h
  dsimp only at h
  rw [if_pos hv.echo] at h
  obtain ⟨u, hu, h⟩ := bind_eq_some_iff.mp h
  obtain ⟨v, hwrite, h⟩ := bind_eq_some_iff.mp h
  obtain ⟨w, hw, h⟩ := bind_eq_some_iff.mp h
  obtain ⟨x, hx, h⟩ := bind_eq_some_iff.mp h
  cases h
  have hstart : Goes t u (t.prompt.length + 0) := goes_moveCursorToPos hv hu
  have htextv := prints_writeLine hstart.screen htext hwrite
  have hblanks := prints_repeatTimes (fun a b ha hab => prints_writeLine ha glyph_space hab)
    htextv.screen hw
  have hd : Drawn t w := by
    apply ((Drawn.moveCursorToPos hu).trans (Drawn.writeLine hwrite)).trans
    exact repeatTimes_induction Drawn.refl (fun _ _ _ => Drawn.trans)
      (fun _ _ => Drawn.writeLine) hw
  have hback := goes_back hv hd.framed hblanks.screen hx
  have hall := (htextv.trans hblanks).painted
  rw [hstart.spot] at hall
  exact ⟨(Painted.after_move hstart.painted hall).then_move hback.painted, hback.spot,
    hback.screen, hd.framed.trans (Drawn.moveCursorToPos hx).framed, rfl, rfl⟩

theorem redrawn_setLine : Redrawn t t' := by
  obtain ⟨hpainted, hspot, hscreen, hf, hline, hpos⟩ := painted_setLine hv htext h
  refine ⟨hf, hscreen, ?_, 0, text, _, Nat.zero_le _, ?_, hline, hpainted⟩
  · rw [hspot, hf.1, hpos, Int.natCast_add]
  · omega

end

theorem redrawn_addKeyToLine (hv : Legible t) {pos : Nat} (hpos : t.pos = pos)
    (hle : pos ≤ t.line.length) (hspot : t.spot = t.prompt.length + pos)
    (h : t.addKeyToLine key = some t') (hline : ∀ r ∈ t'.line, glyph r = true) : Redrawn t t' := by
  have hslice : sliceFrom t.line t.pos = some (t.line.drop pos) := by
    rw [hpos, sliceFrom_of_le hle]
  have htake : t.pos.toNat = pos := by rw [hpos, Int.toNat_natCast]
  unfold Terminal.addKeyToLine at h
  rw [hslice] at h
  dsimp only [bind_eq_bind, bind_some] at h
  rw [if_pos hv.echo] at h
  obtain ⟨u, hu, h⟩ := bind_eq_some_iff.mp h
  have hdu := Drawn.writeLine hu
  have hdt := Drawn.moveCursorToPos h
  have hline' : t'.line = t.line.take pos ++ key :: t.line.drop pos := by
    have hul : u.line = t.line.take t.pos.toNat ++ key :: t.line.drop pos := hdu.line
    rw [hdt.line, ← htake] at *
    exact hul
  have htext : ∀ r ∈ key :: t.line.drop pos, glyph r = true := by
    intro r hr
    apply hline
    rw [hline']
    exact mem_append_right _ hr
  have hupos : u.pos = pos := hdu.pos.trans hpos
  have hprints : Prints t u (key :: t.line.drop pos ++ replicate 0 Screen.blank) := by
    have hprints := prints_writeLine (by exact hv.screen) htext hu
    rw [replicate_zero, append_nil]
    exact ⟨hprints.painted, hprints.spot, hprints.screen⟩
  have hnext : u.pos + 1 = (pos + 1 : Nat) := by rw [hupos, Int.natCast_add]; rfl
  rw [hnext] at h
  have hfu : Framed t u := hdu.framed
  have hback := goes_back hv hfu hprints.screen h
  have hlen : t.line.length ≤ pos + (key :: t.line.drop pos).length + 0 := by
    rw [length_cons, length_drop]
    omega
  have hft : Framed u t' := hdt.framed
  exact redrawn_of_prints (.refl t) hspot hprints hback (hfu.trans hft)
    (hdt.pos.trans hnext) hle hlen hline'

theorem redrawn_erase (hv : Legible t) (hline : ∀ r ∈ t.line, glyph r = true) {pos : Nat}
    (hpos : t.pos = pos) (hle : pos ≤ t.line.length) (hn : 0 ≤ n)
    (hspot : n = 0 → t.spot = t.prompt.length + pos)
    (h : t.eraseNPreviousChars n = some t') : Redrawn t t' := by
  obtain ⟨n, rfl⟩ := Int.eq_ofNat_of_zero_le hn
  unfold Terminal.eraseNPreviousChars at h
  split at h
  · rename_i hn
    cases h
    apply redrawn_refl hv.screen
    rw [hspot (by omega), hpos, Int.natCast_add]
  have hcount : (if t.pos < (n : Int) then t.pos else n) = (min n pos : Nat) := by
    split <;> omega
  have hnew : t.pos - (min n pos : Nat) = (pos - n : Nat) := by omega
  dsimp only at h
  rw [hcount, hnew] at h
  obtain ⟨u, hu, h⟩ := bind_eq_some_iff.mp h
  have hd := Drawn.moveCursorToPos hu
  have hul : u.line = t.line := hd.line
  have hup : u.pos = (pos - n : Nat) := hd.pos
  have hfu : Framed t u := hd.framed
  have hgo := goes_moveCursorToPos (t := { t with pos := (pos - n : Nat) })
    ⟨hv.screen, hv.echo, hv.prompt⟩ hu
  have htail : sliceFrom u.line ((min n pos : Nat) + u.pos) = some (t.line.drop pos) := by
    have hsum : ((min n pos : Nat) : Int) + (pos - n : Nat) = pos := by omega
    rw [hul, hup, hsum, sliceFrom_of_le hle]
  obtain ⟨_, _, h⟩ := bind_eq_some_iff.mp h
  rw [htail] at h
  dsimp only [bind_eq_bind, bind_some] at h
  rw [if_pos (hfu.2.1.trans hv.echo)] at h
  obtain ⟨v, hwrite, h⟩ := bind_eq_some_iff.mp h
  obtain ⟨w, hw, h⟩ := bind_eq_some_iff.mp h
  have htext := prints_writeLine (by exact hgo.screen)
    (fun r hr => hline r (mem_of_mem_drop hr)) hwrite
  have hblanks : Prints v w (replicate (min n pos) Screen.blank) := by
    apply prints_advance htext.screen (fun r hr => by rw [eq_of_mem_replicate hr]; rfl)
    rw [length_replicate]
    exact hw
  have hdw : Drawn { u with line := u.line.take u.pos.toNat ++ t.line.drop pos } w :=
    ((Drawn.writeLine hwrite).trans (.queue v _)).trans (Drawn.advanceCursor hw)
  have hwp : w.pos = (pos - n : Nat) := hdw.pos.trans hup
  have hfw : Framed t w := hfu.trans hdw.framed
  rw [hwp] at h
  have hback := goes_back hv hfw hblanks.screen h
  have hdt := Drawn.moveCursorToPos h
  have hwl : w.line = t.line.take (pos - n) ++ t.line.drop pos := by
    have hwl := hdw.line
    dsimp only at hwl
    rw [hwl, hul, hup, Int.toNat_natCast]
  have hlen : t.line.length ≤ pos - n + (t.line.drop pos).length + min n pos := by
    rw [length_drop]
    omega
  have hall := htext.trans hblanks
  exact redrawn_of_prints hgo.painted hgo.spot ⟨hall.painted, hall.spot, hall.screen⟩ hback
    (hfw.trans hdt.framed) (hdt.pos.trans hwp) (Nat.le_trans (Nat.sub_le _ _) hle) hlen
    (hdt.line.trans hwl)

theorem redrawn_deleteLine (hv : Legible t) {pos : Nat} (hpos : t.pos = pos)
    (hle : pos ≤ t.line.length) (hspot : t.spot = t.prompt.length + pos)
    (h : t.handleDeleteLine = some t') : Redrawn t t' := by
  unfold Terminal.handleDeleteLine at h
  obtain ⟨u, hu, h⟩ := bind_eq_some_iff.mp h
  have hblanks := prints_repeatTimes (fun a b ha hab => prints_advance ha glyph_space hab)
    hv.screen hu
  have hd : Drawn t u := by
    apply repeatTimes_induction Drawn.refl (fun _ _ _ => Drawn.trans) _ hu
    intro a b hab
    exact (Drawn.queue a space).trans (Drawn.advanceCursor hab)
  have hslice : sliceTo u.line u.pos = some (t.line.take pos) := by
    rw [hd.line, hd.pos, hpos, sliceTo_of_le hle]
  rw [hslice, hd.pos.trans hpos] at h
  dsimp only [bind_eq_bind, bind_some] at h
  have hback := goes_back hv hd.framed hblanks.screen h
  have hdt := Drawn.moveCursorToPos h
  have hlen : t.line.length ≤ pos + ([] : List Rune).length +
    ((t.line.length : Int) - t.pos).toNat := by
    rw [length_nil]
    omega
  have hft : Framed u t' := hdt.framed
  exact redrawn_of_prints (.refl t) hspot hblanks hback (hd.framed.trans hft) hdt.pos hle hlen
    (hdt.line.trans (append_nil _).symm)

theorem validRune_clear : ∀ r ∈ vt100 '2' ++ ['J'.toNat] ++ vt100 'H', validRune r = true :=
    by decide

theorem shown_clearScreen (hv : Legible t) (hline : ∀ r ∈ t.line, glyph r = true) {pos : Nat}
    (hpos : t.pos = pos) (h : t.handleClearScreen = some t') (hat : At p t s) :
    Framed t t' ∧ ∃ rs, (∀ r ∈ rs, validRune r = true) ∧
      t'.outBuf = t.outBuf ++ Utf8.encode rs ∧ Shown 0 t' (s.feed rs) := by
  let clear : List Rune := vt100 '2' ++ ['J'.toNat] ++ vt100 'H'
  let home : Terminal := { t.queue clear with cursorX := 0, cursorY := 0 }
  unfold Terminal.handleClearScreen at h
  obtain ⟨u, hu, h⟩ := bind_eq_some_iff.mp h
  have hu' : (home.queue t.prompt).advanceCursor t.prompt.length = some u := by
    rw [← visualLength_eq hv.prompt]
    exact hu
  have hhome : OnScreen home :=
    ⟨Int.le_refl 0, Int.lt_of_le_of_lt hv.screen.1 hv.screen.2.1, Int.le_refl 0⟩
  have hprints := prints_advance hhome hv.prompt hu'
  have hd : Drawn home u := (Drawn.queue home t.prompt).trans (Drawn.advanceCursor hu')
  have hfu : Framed t u := hd.framed
  have hup := hfu.1
  have hul : u.line = t.line := hd.line
  have hupos : u.pos = pos := hd.pos.trans hpos
  rw [hupos, hul] at h
  obtain ⟨hpainted, hspot, hscreen, hf, hl, hpos'⟩ := painted_setLine
    (hv.framed hfu hprints.screen) hline h
  rw [hup, hul, Nat.sub_self, replicate_zero, append_nil] at hpainted
  have hzero : home.spot = 0 := Nat.zero_mul _
  have hall := hprints.painted
  rw [hzero] at hall
  rw [← Nat.zero_add t.prompt.length] at hpainted
  obtain ⟨rs, hvalid, ho, hfeed⟩ := hall.trans hpainted
  have hcleared : s.feed clear = { s with
      cells := fun _ _ => Screen.blank, row := 0, col := 0, wrap := false } :=
    Screen.feed_clear hat.ready.mode
  have hatHome : At 0 home (s.feed clear) := by
    rw [hcleared]
    refine ⟨⟨?_, nofun, hat.ready.mode⟩, hat.width, rfl, rfl, rfl⟩
    exact Nat.lt_of_le_of_lt (Nat.zero_le _) hat.ready.col
  obtain ⟨hat', hcell, hwidth⟩ := hfeed 0 _ hatHome
  refine ⟨hfu.trans hf, clear ++ rs, ?_, ?_, ?_⟩
  · intro r hr
    exact (mem_append.mp hr).elim (validRune_clear r) (hvalid r)
  · rw [ho, Utf8.encode_append, ← append_assoc]
    rfl
  rw [Screen.feed_append]
  refine ⟨hat', hscreen, ?_, ?_⟩
  · rw [hspot, hf.1, hup, hpos', Int.natCast_add]
  intro i
  rw [hcell, Nat.zero_mul, Nat.zero_add, hf.1, hup, hl, hcleared, Nat.zero_mul, Nat.zero_add]
  rfl

theorem edited_eq (h : Terminal.edited x = some (t', r)) : x = some t' := by
  obtain ⟨u, hu, he⟩ := map_eq_some_iff.mp h
  cases he
  exact hu

theorem setLine_line {text : List Rune} (h : t.setLine text i = some t') : t'.line = text := by
  unfold Terminal.setLine at h
  dsimp only at h
  split at h
  · obtain ⟨u, -, h⟩ := bind_eq_some_iff.mp h
    obtain ⟨v, -, h⟩ := bind_eq_some_iff.mp h
    obtain ⟨w, -, h⟩ := bind_eq_some_iff.mp h
    obtain ⟨x, -, h⟩ := bind_eq_some_iff.mp h
    cases h
    rfl
  · cases h
    rfl

theorem redrawn_showEntry (hv : Legible t) (h : t.showEntry entry i = some t')
    (hline : ∀ r ∈ t'.line, glyph r = true) : Redrawn t t' := by
  unfold Terminal.showEntry at h
  rw [setLine_line h] at hline
  have hr := redrawn_setLine (t := { t with historyIndex := i })
    ⟨hv.screen, hv.echo, hv.prompt⟩ hline h
  exact ⟨hr.frame, hr.screen, hr.spot, hr.line⟩

theorem redrawn_handleUp (hv : Legible t) (hrefl : Redrawn t t) (h : t.handleUp = some t')
    (hline : ∀ r ∈ t'.line, glyph r = true) : Redrawn t t' := by
  unfold Terminal.handleUp at h
  obtain ⟨entry, -, h⟩ := bind_eq_some_iff.mp h
  cases entry with
  | none =>
    cases h
    exact hrefl
  | some entry =>
    dsimp only at h
    split at h
    · have hr := redrawn_showEntry (t := { t with historyPending := Utf8.encode t.line })
        ⟨hv.screen, hv.echo, hv.prompt⟩ h hline
      exact ⟨hr.frame, hr.screen, hr.spot, hr.line⟩
    · exact redrawn_showEntry hv h hline

theorem redrawn_handleDown (hv : Legible t) (hrefl : Redrawn t t) (h : t.handleDown = some t')
    (hline : ∀ r ∈ t'.line, glyph r = true) : Redrawn t t' := by
  unfold Terminal.handleDown at h
  split at h
  · cases h
    exact hrefl
  split at h
  · exact redrawn_showEntry hv h hline
  obtain ⟨entry, -, h⟩ := bind_eq_some_iff.mp h
  cases entry with
  | none =>
    cases h
    exact hrefl
  | some entry => exact redrawn_showEntry hv h hline

theorem handleEnter_ne : t.handleEnter ≠ some (t', .more) := by
  intro h
  obtain ⟨u, -, h⟩ := bind_eq_some_iff.mp h
  cases h

theorem redrawn_handleCase (hv : Legible t) (hr : Refines t e)
    (hspot : (t.spot : Int) = t.prompt.length + t.pos) (hline : ∀ r ∈ t.line, glyph r = true)
      {k : Key} (hk : k ≠ .clearScreen)
    (h : t.handleCase key k = some (t', .more)) (hline' : ∀ r ∈ t'.line, glyph r = true) :
    Redrawn t t' := by
  have hpos := hr.pos
  have hle : e.edit.pos ≤ t.line.length := by
    rw [hr.line]
    exact e.edit.pos_le
  have hspot' : t.spot = t.prompt.length + e.edit.pos := by omega
  have hrefl := redrawn_refl hv.screen hspot
  cases k with
  | backspace =>
    have hx := edited_eq h
    split at hx
    · cases hx
      exact hrefl
    · exact redrawn_erase hv hline hpos hle Int.one_nonneg (by simp) hx
  | altLeft =>
    have hx := edited_eq h
    obtain ⟨hcount, hstart⟩ := EditLine.countToLeftWord t e.edit
    rw [hr.holding] at hcount
    rw [hcount] at hx
    exact redrawn_goTo hv (by omega) hx
  | altRight =>
    have hx := edited_eq h
    obtain ⟨hcount, hend⟩ := EditLine.countToRightWord t e.edit
    rw [hr.holding] at hcount
    rw [hcount] at hx
    exact redrawn_goTo hv (by omega) hx
  | left | right | home | «end» =>
    have hx := edited_eq h
    split at hx
    · cases hx
      exact hrefl
    · exact redrawn_goTo hv (by omega) hx
  | up => exact redrawn_handleUp hv hrefl (edited_eq h) hline'
  | down => exact redrawn_handleDown hv hrefl (edited_eq h) hline'
  | enter => exact absurd h handleEnter_ne
  | deleteWord =>
    have hx := edited_eq h
    obtain ⟨hcount, hstart⟩ := EditLine.countToLeftWord t e.edit
    rw [hr.holding] at hcount
    rw [hcount] at hx
    exact redrawn_erase hv hline hpos hle (by omega) (fun _ => hspot') hx
  | deleteLine => exact redrawn_deleteLine hv hpos hle hspot' (edited_eq h)
  | ctrlD =>
    have hx := edited_eq h
    split at hx
    · have hnew : t.pos + 1 = (e.edit.pos + 1 : Nat) := by omega
      have hlt : e.edit.pos + 1 ≤ t.line.length := by omega
      have hr' := redrawn_erase (t := { t with pos := t.pos + 1 })
        ⟨hv.screen, hv.echo, hv.prompt⟩ hline hnew hlt Int.one_nonneg (by simp) hx
      exact ⟨hr'.frame, hr'.screen, hr'.spot, hr'.line⟩
    · cases hx
      exact hrefl
  | ctrlU =>
    exact redrawn_erase hv hline hpos hle (by omega) (fun _ => hspot') (edited_eq h)
  | clearScreen => exact absurd rfl hk
  | other =>
    rw [Terminal.handleCase, hr.autoComplete, if_neg Bool.false_ne_true] at h
    have hx := edited_eq h
    unfold Terminal.insertKey at hx
    split at hx
    · cases hx
      exact hrefl
    split at hx
    · cases hx
      exact hrefl
    · exact redrawn_addKeyToLine hv hpos hle hspot' hx hline'

theorem Shown.handleKey (h : Shown p t s) (hr : Refines t e) (hv : Legible t)
    (hline : ∀ r ∈ t.line, glyph r = true)
    (hk : t.handleKey key = some (t', .more)) (hline' : ∀ r ∈ t'.line, glyph r = true) :
    Framed t t' ∧ ∃ rs p', (∀ r ∈ rs, validRune r = true) ∧
      t'.outBuf = t.outBuf ++ Utf8.encode rs ∧ Shown p' t' (s.feed rs) ∧ (p' = p ∨ p' = 0) := by
  have hpos := hr.pos
  have hle : e.edit.pos ≤ t.line.length := by
    rw [hr.line]
    exact e.edit.pos_le
  have hspot := h.spot
  unfold Terminal.handleKey at hk
  split at hk
  · have hredrawn := redrawn_addKeyToLine hv hpos hle (by omega) (edited_eq hk) hline'
    obtain ⟨rs, hvalid, ho, hs⟩ := h.redrawn hredrawn
    exact ⟨hredrawn.frame, rs, p, hvalid, ho, hs, .inl rfl⟩
  by_cases hc : Key.of key = .clearScreen
  · rw [hc] at hk
    obtain ⟨hf, rs, hvalid, ho, hs⟩ := shown_clearScreen hv hline hpos (edited_eq hk) h.at_
    exact ⟨hf, rs, 0, hvalid, ho, hs, .inr rfl⟩
  · have hredrawn := redrawn_handleCase hv hr hspot hline hc hk hline'
    obtain ⟨rs, hvalid, ho, hs⟩ := h.redrawn hredrawn
    exact ⟨hredrawn.frame, rs, p, hvalid, ho, hs, .inl rfl⟩

end Redrawing

end XCryptoSsh
