import XCryptoSsh.TerminalText
import XCryptoSsh.TerminalEditor

namespace XCryptoSsh
open List Option
set_option autoImplicit true

open Go (Bytes)
open Utf8 (Rune runeError)

def OnScreen (t : Terminal) : Prop :=
  0 ≤ t.cursorX ∧ t.cursorX < t.termWidth ∧ 0 ≤ t.cursorY

def Draws (t : Terminal) (x : Option Terminal) : Prop :=
  ∃ t', x = some t' ∧ Drawn t t' ∧ OnScreen t'

namespace Draws

theorem refl (h : OnScreen t) : Draws t (some t) := ⟨t, rfl, .refl t, h⟩

theorem bind {f : Terminal → Option Terminal} (h : Draws t x)
    (hf : ∀ u, Drawn t u → OnScreen u → Draws t' (f u)) : Draws t' (x.bind f) := by
  obtain ⟨u, rfl, hd, hs⟩ := h
  exact hf u hd hs

theorem map {f : Terminal → Terminal} (h : Draws t x)
    (hf : ∀ u, OnScreen u → Drawn u (f u) ∧ OnScreen (f u)) : Draws t (x.map f) := by
  obtain ⟨u, rfl, hd, hs⟩ := h
  exact ⟨f u, rfl, hd.trans (hf u hs).1, (hf u hs).2⟩

theorem of_drawn (hd : Drawn t u) (h : Draws u x) : Draws t x := by
  obtain ⟨v, hv, hd', hs⟩ := h
  exact ⟨v, hv, hd.trans hd', hs⟩

theorem move (hs : OnScreen t) (hu : 0 ≤ up) (hd : 0 ≤ down) (hl : 0 ≤ left) (hr : 0 ≤ right) :
    Draws t (t.move up down left right) := by
  unfold Terminal.move
  rw [if_pos ⟨hu, hd, hl, hr⟩]
  exact ⟨_, rfl, .queue t _, hs⟩

theorem moveCursorToPos (hs : OnScreen t) (hp : 0 ≤ pos) : Draws t (t.moveCursorToPos pos) := by
  obtain ⟨hx, hlt, hy⟩ := hs
  have hnum : (0 : Int) ≤ visualLength t.prompt + pos := Int.add_nonneg (Int.natCast_nonneg _) hp
  unfold Terminal.moveCursorToPos
  split
  · exact refl ⟨hx, hlt, hy⟩
  rw [if_neg (by omega)]
  apply of_drawn (Drawn.setCursor t _ _)
  apply move
  · refine ⟨Int.tmod_nonneg _ hnum, ?_, Int.tdiv_nonneg hnum (by omega)⟩
    exact Int.tmod_lt_of_pos _ (by omega)
  all_goals split <;> omega

theorem advanceCursor (hs : OnScreen t) (hn : 0 ≤ n) : Draws t (t.advanceCursor n) := by
  obtain ⟨hx, hlt, hy⟩ := hs
  obtain ⟨t', ht'⟩ : ∃ t', t.advanceCursor n = some t' := by
    unfold Terminal.advanceCursor
    rw [if_neg (by omega)]
    exact ⟨_, rfl⟩
  refine ⟨t', ht', .advanceCursor ht', ?_⟩
  have hnum : 0 ≤ t.cursorX + n := by omega
  have hy' : 0 ≤ t.cursorY + (t.cursorX + n).tdiv t.termWidth :=
    Int.add_nonneg hy (Int.tdiv_nonneg hnum (by omega))
  have hx' := Int.tmod_nonneg t.termWidth hnum
  have hlt' := Int.tmod_lt_of_pos (t.cursorX + n) (show 0 < t.termWidth by omega)
  unfold Terminal.advanceCursor at ht'
  rw [if_neg (by omega)] at ht'
  dsimp only at ht'
  split at ht' <;> cases ht' <;> exact ⟨hx', hlt', hy'⟩

theorem writeLine (hs : OnScreen t) (text : List Rune) : Draws t (t.writeLine text) := by
  induction t, text using Terminal.writeLine.induct with
  | case1 t =>
    rw [Terminal.writeLine_nil]
    exact refl hs
  | case2 t text hl hneg =>
    exfalso
    obtain ⟨hx, hlt, hy⟩ := hs
    unfold Terminal.todo at hneg
    split at hneg <;> omega
  | case3 t text hl hneg row =>
    rename_i hnone
    obtain ⟨u, hu, _⟩ := advanceCursor (t := t.queue row) (n := visualLength row) hs
      (Int.natCast_nonneg _)
    cases hnone.symm.trans hu
  | case4 t text hl hneg row t' =>
    rename_i hsome ih
    rw [Terminal.writeLine_row hl, if_neg hneg]
    have hrow : Draws t ((t.queue row).advanceCursor (visualLength row)) :=
      of_drawn (.queue t row) (advanceCursor hs (Int.natCast_nonneg _))
    obtain ⟨u, hu, hd, hs'⟩ := hrow
    cases hsome.symm.trans hu
    rw [hu]
    exact of_drawn hd (ih hs')

theorem repeatTimes {f : Terminal → Option Terminal} (hf : ∀ u, OnScreen u → Draws u (f u))
    (hs : OnScreen t) (n : Nat) : Draws t (repeatTimes f n t) := by
  induction n generalizing t with
  | zero => exact refl hs
  | succ n ih =>
    apply (hf t hs).bind
    intro u hd hu
    exact of_drawn hd (ih hu)

theorem clearRows {dir : Terminal → Option Terminal} (hdir : ∀ u, OnScreen u → Draws u (dir u))
    (hs : OnScreen t) (n : Nat) : Draws t (t.clearRows dir n) := by
  apply repeatTimes _ hs
  intro u hu
  apply (hdir u hu).map
  intro v hv
  exact ⟨.queue v _, hv⟩

end Draws

def Terminal.holding (t : Terminal) (e : EditLine) : Terminal :=
  { t with line := e.text, pos := e.pos }

theorem Drawn.exists {t u : Terminal} (h : Drawn t u) : ∃ x y m o, u =
    { t with cursorX := x, cursorY := y, maxLine := m, outBuf := o } := ⟨_, _, _, _, h⟩

namespace EditLine

theorem erase_zero (e : EditLine) : e.erase 0 = e := by
  unfold erase
  simp only [Nat.sub_zero, take_append_drop]

end EditLine

namespace Draws

variable {t : Terminal} {e : EditLine}

section

variable (hs : OnScreen t)

include hs

theorem setLine (e : EditLine) : Draws (t.holding e) (t.setLine e.text e.pos) := by
  have hend : ∀ u, Drawn t u → OnScreen u →
      Draws (t.holding e) (some { u with line := e.text, pos := e.pos }) := by
    intro u hd hu
    obtain ⟨x, y, m, o, rfl⟩ := hd.exists
    exact ⟨_, rfl, rfl, hu⟩
  unfold Terminal.setLine
  dsimp only
  split
  · apply (moveCursorToPos hs (Int.le_refl 0)).bind
    intro u hu hus
    apply (writeLine hus e.text).bind
    intro v hv hvs
    apply (repeatTimes (fun w hw => writeLine hw space) hvs _).bind
    intro w hw hws
    apply (moveCursorToPos hws (Int.natCast_nonneg _)).bind
    intro z hz
    exact hend z (((hu.trans hv).trans hw).trans hz)
  · exact hend t (.refl t) hs

theorem addKeyToLine (e : EditLine) (key : Rune) :
    Draws (t.holding (e.insert key)) ((t.holding e).addKeyToLine key) := by
  have hend : ∀ u, Drawn { t.holding e with line := (e.insert key).text } u → OnScreen u →
      Draws (t.holding (e.insert key))
        ({ u with pos := u.pos + 1 }.moveCursorToPos (u.pos + 1)) := by
    intro u hd hu
    have hpos : u.pos = e.pos := hd.pos
    have hv : Drawn (t.holding (e.insert key)) { u with pos := u.pos + 1 } := by
      obtain ⟨x, y, m, o, rfl⟩ := hd.exists
      rfl
    exact of_drawn hv (moveCursorToPos hu (by omega))
  have hslice : sliceFrom (t.holding e).line (t.holding e).pos = some (e.text.drop e.pos) :=
    sliceFrom_of_le e.pos_le
  unfold Terminal.addKeyToLine
  rw [hslice]
  dsimp only [bind_eq_bind, bind_some]
  split
  · refine bind (writeLine ?_ _) hend
    exact hs
  · exact hend _ (.refl _) hs

theorem erase (e : EditLine) (n : Nat) :
    Draws (t.holding (e.erase n)) ((t.holding e).eraseNPreviousChars n) := by
  have hle := e.pos_le
  unfold Terminal.eraseNPreviousChars
  split
  · rename_i hn
    have hz : n = 0 := by omega
    rw [hz, EditLine.erase_zero]
    exact refl hs
  have hcount : (if (t.holding e).pos < (n : Int) then (t.holding e).pos else n) =
      (min n e.pos : Nat) := by
    change (if (e.pos : Int) < n then (e.pos : Int) else n) = (min n e.pos : Nat)
    split <;> omega
  have hnew : (t.holding e).pos - (min n e.pos : Nat) = (e.pos - n : Nat) := by
    change (e.pos : Int) - (min n e.pos : Nat) = (e.pos - n : Nat)
    omega
  dsimp only
  rw [hcount, hnew]
  refine bind (moveCursorToPos ?_ (Int.natCast_nonneg _)) ?_
  · exact hs
  intro u hd hu
  have hline : u.line = e.text := hd.line
  have hpos : u.pos = (e.pos - n : Nat) := hd.pos
  have hfrom : sliceFrom u.line u.pos = some (e.text.drop (e.pos - n)) := by
    rw [hline, hpos, sliceFrom_of_le (by omega)]
  have htail : sliceFrom u.line ((min n e.pos : Nat) + u.pos) = some (e.text.drop e.pos) := by
    have hsum : ((min n e.pos : Nat) : Int) + (e.pos - n : Nat) = e.pos := by omega
    rw [hline, hpos, hsum, sliceFrom_of_le hle]
  have hv : Drawn (t.holding (e.erase n))
      { u with line := u.line.take u.pos.toNat ++ e.text.drop e.pos } := by
    obtain ⟨x, y, m, o, rfl⟩ := hd.exists
    rfl
  rw [hfrom, htail]
  apply of_drawn hv
  dsimp only [bind_eq_bind, bind_some]
  split
  · refine bind (writeLine ?_ _) ?_
    · exact hu
    intro v hv hvs
    have hvp : v.pos = u.pos := hv.pos
    apply of_drawn (hv.trans (.queue v _))
    refine bind (advanceCursor ?_ (Int.natCast_nonneg _)) ?_
    · exact hvs
    intro w hw hws
    have hwp : w.pos = v.pos := hw.pos
    exact of_drawn hw (moveCursorToPos hws (by omega))
  · exact refl hu

theorem deleteLine (e : EditLine) : Draws (t.holding e.cut) ((t.holding e).handleDeleteLine) := by
  have hspaces : Draws (t.holding e)
      (XCryptoSsh.repeatTimes (fun u => (u.queue space).advanceCursor 1)
        ((t.holding e).line.length - (t.holding e).pos).toNat (t.holding e)) := by
    refine repeatTimes ?_ (by exact hs) _
    intro u hu
    exact of_drawn (.queue u space) (advanceCursor hu (Int.zero_le_ofNat 1))
  unfold Terminal.handleDeleteLine
  apply hspaces.bind
  intro u hd hu
  have hslice : sliceTo u.line u.pos = some (e.text.take e.pos) := by
    rw [hd.line, hd.pos]
    exact sliceTo_of_le e.pos_le
  have hv : Drawn (t.holding e.cut) { u with line := e.text.take e.pos } := by
    obtain ⟨x, y, m, o, rfl⟩ := hd.exists
    rfl
  have hpos : u.pos = e.pos := hd.pos
  rw [hslice]
  exact of_drawn hv (moveCursorToPos hu (by omega))

theorem clearScreen (e : EditLine) : Draws (t.holding e) ((t.holding e).handleClearScreen) := by
  unfold Terminal.handleClearScreen
  have hhome : OnScreen { (t.holding e).queue (vt100 '2' ++ ['J'.toNat] ++ vt100 'H') with
      cursorX := 0, cursorY := 0 } :=
    ⟨Int.le_refl 0, Int.lt_of_le_of_lt hs.1 hs.2.1, Int.le_refl 0⟩
  refine bind (advanceCursor ?_ (Int.natCast_nonneg _)) ?_
  · exact hhome
  intro u hd hu
  obtain ⟨x, y, m, o, rfl⟩ := hd.exists
  obtain ⟨v, hv, hdv, hsv⟩ := setLine hu e
  refine ⟨v, hv, ?_, hsv⟩
  obtain ⟨x', y', m', o', rfl⟩ := hdv.exists
  rfl

theorem clearInput : Draws t t.clearInput := by
  have hwidth : 0 < t.termWidth := Int.lt_of_le_of_lt hs.1 hs.2.1
  unfold Terminal.clearInput
  refine bind (move hs (Int.le_refl 0) (Int.le_refl 0) hs.1 (Int.le_refl 0)) ?_
  intro u hd hu
  have hrows : Draws { u with cursorX := 0 }.clearLineToRight
      ({ u with cursorX := 0 }.clearLineToRight.clearRows (·.move 1 0 0 0) u.cursorY.toNat) := by
    apply clearRows
    · intro v hv
      exact move hv (Int.zero_le_ofNat 1) (Int.le_refl 0) (Int.le_refl 0) (Int.le_refl 0)
    · exact ⟨Int.le_refl 0, Int.lt_of_le_of_lt hu.1 hu.2.1, hu.2.2⟩
  apply hrows.bind
  intro v hv hvs
  refine ⟨_, rfl, ?_, hvs.1, hvs.2.1, ?_⟩
  · obtain ⟨x, y, m, o, rfl⟩ := hd.exists
    obtain ⟨x', y', m', o', rfl⟩ := hv.exists
    rfl
  · dsimp only
    split
    · exact Int.le_refl 0
    · exact hvs.2.2

theorem showInput (hp : 0 ≤ t.pos) : Draws t t.showInput := by
  have hend : ∀ u, Drawn t u → OnScreen u → Draws t (u.moveCursorToPos u.pos) := by
    intro u hd hu
    have hpos := hd.pos
    exact of_drawn hd (moveCursorToPos hu (by omega))
  unfold Terminal.showInput
  refine bind (writeLine hs t.prompt) ?_
  intro u hd hu
  dsimp only [bind_eq_bind]
  split
  · refine bind (writeLine hu u.line) ?_
    intro v hv hvs
    exact hend v (hd.trans hv) hvs
  · exact hend u hd hu

theorem clearAndRepaint (hp : 0 ≤ t.pos) (n : Int) :
    Draws t (t.clearAndRepaintLinePlusNPrevious n) := by
  have hwidth : 0 < t.termWidth := Int.lt_of_le_of_lt hs.1 hs.2.1
  unfold Terminal.clearAndRepaintLinePlusNPrevious
  refine bind (move hs hs.2.2 (Int.le_refl 0) hs.1 (Int.le_refl 0)) ?_
  intro u hd hu
  have hrows : Draws { u with cursorX := 0, cursorY := 0 }.clearLineToRight
      ({ u with cursorX := 0, cursorY := 0 }.clearLineToRight.clearRows (·.move 0 1 0 0)
        n.toNat) := by
    apply clearRows
    · intro v hv
      exact move hv (Int.le_refl 0) (Int.zero_le_ofNat 1) (Int.le_refl 0) (Int.le_refl 0)
    · exact ⟨Int.le_refl 0, Int.lt_of_le_of_lt hu.1 hu.2.1, Int.le_refl 0⟩
  apply hrows.bind
  intro v hv hvs
  refine bind (move hvs (Int.natCast_nonneg _) (Int.le_refl 0) (Int.le_refl 0) (Int.le_refl 0)) ?_
  intro w hw hws
  have hstart : OnScreen ({ w with cursorX := 0, cursorY := 0 }.queue w.prompt) :=
    ⟨Int.le_refl 0, Int.lt_of_le_of_lt hws.1 hws.2.1, Int.le_refl 0⟩
  refine bind (advanceCursor hstart (Int.natCast_nonneg _)) ?_
  intro x hx hxs
  refine bind (writeLine hxs x.line) ?_
  intro y hy hys
  have hall : Drawn t y := by
    obtain ⟨_, _, _, _, rfl⟩ := hd.exists
    obtain ⟨_, _, _, _, rfl⟩ := hv.exists
    obtain ⟨_, _, _, _, rfl⟩ := hw.exists
    obtain ⟨_, _, _, _, rfl⟩ := hx.exists
    obtain ⟨_, _, _, _, rfl⟩ := hy.exists
    rfl
  have hpos := hall.pos
  exact of_drawn hall (moveCursorToPos hys (by omega))

end

end Draws

def Displayed (t t' : Terminal) : Prop :=
  t' = { t with
    c := t'.c
    prompt := t'.prompt
    cursorX := t'.cursorX
    cursorY := t'.cursorY
    maxLine := t'.maxLine
    termWidth := t'.termWidth
    outBuf := t'.outBuf }

theorem Drawn.displayed {t t' : Terminal} (h : Drawn t t') : Displayed t t' := by
  rw [Displayed, h]

namespace Displayed

theorem trans (h : Displayed t u) (h' : Displayed u v) : Displayed t v := by
  rw [Displayed] at *
  rw [h', h]

end Displayed

def Displays (t : Terminal) (x : Option Terminal) : Prop :=
  ∃ t', x = some t' ∧ Displayed t t' ∧ OnScreen t'

namespace Displays

variable {t : Terminal}

theorem write (hs : OnScreen t) (hp : 0 ≤ t.pos) (buf : Bytes) :
    Displays t ((t.write buf).map fun r => r.2.2) := by
  unfold Terminal.write
  split
  · exact ⟨_, rfl, rfl, hs⟩
  obtain ⟨u, hu, hd, hus⟩ := Draws.clearInput hs
  have hpos : u.pos = t.pos := hd.pos
  have hdisp := hd.displayed
  rw [hu]
  dsimp only [bind_eq_bind, bind_some]
  split
  · exact ⟨_, rfl, hdisp.trans rfl, hus⟩
  split
  · exact ⟨_, rfl, hdisp.trans rfl, hus⟩
  rename_i n c _
  obtain ⟨v, hv, hdv, hvs⟩ := Draws.showInput (t := { u with c, outBuf := [] }) hus
    (by rw [hpos]; exact hp)
  rw [hv]
  dsimp only [bind_some]
  have hflush : Displayed u { u with c, outBuf := [] } := rfl
  have hdispv := (hdisp.trans hflush).trans hdv.displayed
  split
  · exact ⟨_, rfl, hdispv.trans rfl, hvs⟩
  · exact ⟨_, rfl, hdispv.trans rfl, hvs⟩

theorem setSize (hs : OnScreen t) (hp : 0 ≤ t.pos) (hw : 0 ≤ width) :
    Displays t ((t.setSize width).map fun r => r.2) := by
  obtain ⟨hx, hlt, hy⟩ := hs
  have hw' : 0 < if width = 0 then 1 else width := by split <;> omega
  unfold Terminal.setSize
  dsimp only
  generalize (if width = 0 then 1 else width) = w at hw'
  split
  · rename_i he
    exact ⟨_, rfl, rfl, hx, by rw [he]; exact hlt, hy⟩
  split
  · rename_i hempty
    obtain ⟨-, hx0, hy0⟩ := hempty
    exact ⟨_, rfl, rfl, hx, by rw [hx0]; exact hw', hy⟩
  have hrepaint : ∀ u : Terminal, Displayed t u → OnScreen u → ∀ n,
      Displays t (((u.clearAndRepaintLinePlusNPrevious n).map Terminal.flush).map
        fun r => r.2) := by
    intro u hd hu n
    have hpos : u.pos = t.pos := by rw [hd]
    obtain ⟨v, hv, hdv, hvs⟩ := Draws.clearAndRepaint hu (by rw [hpos]; exact hp) n
    rw [hv]
    exact ⟨_, rfl, (hd.trans hdv.displayed).trans rfl, hvs⟩
  split
  · apply hrepaint
    · exact rfl
    refine ⟨?_, ?_, Int.mul_nonneg hy (Int.zero_le_ofNat 2)⟩
    · dsimp only
      split <;> omega
    · dsimp only
      split <;> omega
  · apply hrepaint
    · exact rfl
    · exact ⟨hx, by dsimp only; omega, hy⟩

theorem showPrompt (hs : OnScreen t) : Displays t t.showPrompt := by
  unfold Terminal.showPrompt
  split
  · obtain ⟨u, hu, hd, hus⟩ := Draws.writeLine hs t.prompt
    rw [hu]
    exact ⟨_, rfl, hd.displayed.trans rfl, hus⟩
  · exact ⟨t, rfl, rfl, hs⟩

end Displays

namespace EditLine

theorem erase_of_pos_eq_zero (e : EditLine) (h : e.pos = 0) (n : Nat) : e.erase n = e := by
  obtain ⟨text, pos, hle⟩ := e
  cases h
  simp only [erase, Nat.zero_sub, take_zero, drop_zero, nil_append]

theorem skipSpaces_le (text : List Rune) (hn : n < text.length) :
    ∃ m, Terminal.skipSpaces text n = some m ∧ m ≤ n := by
  induction n with
  | zero => exact ⟨0, rfl, Nat.le_refl 0⟩
  | succ n ih =>
    obtain ⟨m, hm, hle⟩ := ih (Nat.lt_of_succ_lt hn)
    rw [Terminal.skipSpaces, getElem?_eq_getElem hn, bind_some]
    split
    · exact ⟨n + 1, rfl, Nat.le_refl _⟩
    · exact ⟨m, hm, Nat.le_succ_of_le hle⟩

theorem skipWord_le (text : List Rune) (hn : n < text.length) :
    ∃ m, Terminal.skipWord text n = some m ∧ m ≤ n + 1 := by
  induction n with
  | zero => exact ⟨0, rfl, Nat.zero_le 1⟩
  | succ n ih =>
    obtain ⟨m, hm, hle⟩ := ih (Nat.lt_of_succ_lt hn)
    rw [Terminal.skipWord, getElem?_eq_getElem hn, bind_some]
    split
    · exact ⟨n + 2, rfl, Nat.le_refl _⟩
    · exact ⟨m, hm, Nat.le_succ_of_le hle⟩

theorem countToLeftWord (t : Terminal) (e : EditLine) : (t.holding e).countToLeftWord =
    some ((e.pos : Int) - e.wordStart) ∧ e.wordStart ≤ e.pos := by
  have hle := e.pos_le
  change (if (e.pos : Int) = 0 then some 0 else if (e.pos : Int) ≤ 1 then some 1 else
    (Terminal.skipSpaces e.text ((e.pos : Int) - 1).toNat).bind fun p =>
      (Terminal.skipWord e.text p).bind fun q => some ((e.pos : Int) - q)) = _ ∧ _
  unfold wordStart
  by_cases h1 : e.pos ≤ 1
  · rw [if_pos h1]
    refine ⟨?_, Nat.zero_le _⟩
    split
    · rename_i h0
      rw [h0]
      rfl
    · rw [if_pos (by omega)]
      congr 1
      omega
  · have hpos : ((e.pos : Int) - 1).toNat = e.pos - 1 := by omega
    obtain ⟨m, hm, hmle⟩ := skipSpaces_le e.text (show e.pos - 1 < e.text.length by omega)
    obtain ⟨q, hq, hqle⟩ := skipWord_le e.text (show m < e.text.length by omega)
    rw [if_neg h1, if_neg (by omega), if_neg (by omega), hpos, hm, bind_some, hq,
      bind_some, bind_some, hq]
    exact ⟨rfl, show q ≤ e.pos by omega⟩

theorem countToRightWord (t : Terminal) (e : EditLine) : (t.holding e).countToRightWord =
    some ((e.wordEnd : Int) - e.pos) ∧ e.wordEnd ≤ e.text.length := by
  have hle := e.pos_le
  have hword := takeWhile_prefix (l := e.text.drop e.pos) (fun r => decide (r ≠ 32))
  have hword := hword.length_le
  have hspaces := takeWhile_prefix (fun r => decide (r = 32)) (l := (e.text.drop e.pos).drop
    ((e.text.drop e.pos).takeWhile fun r => decide (r ≠ 32)).length)
  have hspaces := hspaces.length_le
  have hlen : (e.text.drop e.pos).length = e.text.length - e.pos := length_drop
  rw [length_drop] at hspaces
  constructor
  · unfold Terminal.countToRightWord
    rw [if_neg (show ¬ (t.holding e).pos < 0 from Int.not_lt.mpr (Int.natCast_nonneg _))]
    have hpos : (t.holding e).pos.toNat = e.pos := Int.toNat_natCast _
    rw [hpos]
    unfold wordEnd
    dsimp only
    congr 1
    rw [Int.natCast_add, add_sub_cancel_left, Int.natCast_add]
    rfl
  · unfold wordEnd
    dsimp only
    omega

end EditLine

def shownIndex : Option Nat → Int
  | none => -1
  | some i => i

structure Refines (t : Terminal) (e : Editor) : Prop where
  line : t.line = e.edit.text
  pos : t.pos = e.edit.pos
  echo : t.echo = e.echo
  pasteActive : t.pasteActive = e.pasteActive
  history : t.history = .of e.history
  historyIndex : t.historyIndex = shownIndex e.shown
  historyPending : t.historyPending = e.pending
  autoComplete : t.autoComplete = false
  fits : t.remainder.length ≤ inBufSize
  screen : OnScreen t

namespace Refines

variable {t : Terminal} {e : Editor}

section

variable (h : Refines t e)

include h

theorem holding : t.holding e.edit = t := by
  unfold Terminal.holding
  rw [← h.line, ← h.pos]

theorem displays (hx : Displays t x) : ∃ t', x = some t' ∧ Refines t' e := by
  obtain ⟨t', ht', hd, hs⟩ := hx
  refine ⟨t', ht', ?_⟩
  rw [Displayed] at hd
  constructor
  · rw [hd, h.line]
  · rw [hd, h.pos]
  · rw [hd, h.echo]
  · rw [hd, h.pasteActive]
  · rw [hd, h.history]
  · rw [hd, h.historyIndex]
  · rw [hd, h.historyPending]
  · rw [hd, h.autoComplete]
  · rw [hd]
    exact h.fits
  · exact hs

theorem edits (hx : Draws (t.holding l) x) :
    ∃ t', x = some t' ∧ Refines t' { e with edit := l } := by
  obtain ⟨t', ht', hd, hs⟩ := hx
  have h' : Refines (t.holding l) { e with edit := l } :=
    { h with line := rfl, pos := rfl }
  exact h'.displays ⟨t', ht', hd.displayed, hs⟩

theorem goTo_of_pos {j : Int} (hj : j = (min i e.edit.text.length : Nat)) :
    Refines { t with pos := j } { e with edit := e.edit.goTo i } :=
  { h with pos := hj }

theorem goTo {j : Int} (hj : j = (min i e.edit.text.length : Nat)) :
    ∃ t', { t with pos := j }.moveCursorToPos j = some t' ∧
      Refines t' { e with edit := e.edit.goTo i } := by
  have h' := h.goTo_of_pos hj
  obtain ⟨t', ht', hd, hs⟩ := Draws.moveCursorToPos h'.screen (show 0 ≤ j by omega)
  exact h'.displays ⟨t', ht', hd.displayed, hs⟩

theorem erase {j : Int} (hj : j = (n : Nat)) :
    ∃ t', t.eraseNPreviousChars j = some t' ∧ Refines t' { e with edit := e.edit.erase n } := by
  have hd := Draws.erase h.screen e.edit n
  rw [h.holding, ← hj] at hd
  exact h.edits hd

theorem addKeyToLine (key : Rune) :
    ∃ t', t.addKeyToLine key = some t' ∧ Refines t' { e with edit := e.edit.insert key } := by
  have hd := Draws.addKeyToLine h.screen e.edit key
  rw [h.holding] at hd
  exact h.edits hd

theorem insertKey (key : Rune) :
    ∃ t', t.insertKey key = some t' ∧ Refines t' (e.insertKey key) := by
  unfold Terminal.insertKey Editor.insertKey
  rw [h.line]
  split
  · rename_i hp
    rw [if_neg (by rw [hp]; exact fun hc => Bool.false_ne_true hc.1)]
    exact ⟨t, rfl, h⟩
  rename_i hp
  split
  · rename_i hl
    rw [if_neg (fun hc => hc.2 hl)]
    exact ⟨t, rfl, h⟩
  · rename_i hl
    rw [if_pos ⟨by simpa using hp, hl⟩]
    exact h.addKeyToLine key

end

theorem showEntry (h : Refines { t with historyIndex := i } e) (entry : Bytes) :
    ∃ t', t.showEntry entry i = some t' ∧
      Refines t' { e with edit := .ofText (Utf8.decode entry) } :=
  h.edits (Draws.setLine h.screen (.ofText (Utf8.decode entry)))

theorem nthPreviousEntry (h : Refines t e) (n : Nat) :
    t.history.nthPreviousEntry n = some e.recent[n]? := by
  rw [h.history, StRingBuffer.nthPreviousEntry_of]
  rfl

theorem handleUp (h : Refines t e) : ∃ t', t.handleUp = some t' ∧ Refines t' e.up := by
  have hnext : t.historyIndex + 1 = (e.shown.elim 0 (· + 1) : Nat) := by
    rw [h.historyIndex]
    cases e.shown with
    | none => rfl
    | some i => rfl
  unfold Terminal.handleUp
  rw [hnext, h.nthPreviousEntry]
  by_cases hlt : e.shown.elim 0 (· + 1) < e.recent.length
  · rw [getElem?_eq_getElem hlt, Editor.up, dif_pos hlt]
    dsimp only [bind_eq_bind, bind_some]
    let e' : Editor := { e with
      pending := if e.shown = none then Utf8.encode e.edit.text else e.pending
      shown := some (e.shown.elim 0 (· + 1))
      shown_lt := fun j hj => by
        cases hj
        exact hlt }
    by_cases hs : t.historyIndex = -1
    · have hnone : e.shown = none := by
        have hindex := h.historyIndex
        cases he : e.shown with
        | none => rfl
        | some i =>
          rw [hs, he] at hindex
          cases hindex
      have h' : Refines { t with
          historyPending := Utf8.encode t.line
          historyIndex := t.historyIndex + 1 } e' := by
        refine { h with historyIndex := hnext, historyPending := ?_ }
        dsimp only [e']
        rw [if_pos hnone, h.line]
      rw [if_pos hs]
      exact showEntry (t := { t with historyPending := Utf8.encode t.line }) h' _
    · have hsome : e.shown ≠ none := by
        intro he
        have hindex := h.historyIndex
        rw [he] at hindex
        exact hs hindex
      have h' : Refines { t with historyIndex := t.historyIndex + 1 } e' := by
        refine { h with historyIndex := hnext, historyPending := ?_ }
        dsimp only [e']
        rw [if_neg hsome, h.historyPending]
      rw [if_neg hs]
      exact h'.showEntry _
  · rw [getElem?_eq_none (Nat.le_of_not_lt hlt), Editor.up, dif_neg hlt]
    exact ⟨t, rfl, h⟩

theorem handleDown (h : Refines t e) : ∃ t', t.handleDown = some t' ∧ Refines t' e.down := by
  have hindex := h.historyIndex
  unfold Editor.down
  split
  · rename_i hs
    rw [hs] at hindex
    rw [Terminal.handleDown, if_pos (show t.historyIndex = -1 from hindex)]
    exact ⟨t, rfl, h⟩
  · rename_i hs
    rw [hs] at hindex
    have hzero : t.historyIndex = 0 := hindex
    have h' : Refines { t with historyIndex := -1 } { e with shown := none, shown_lt := by simp } :=
      { h with historyIndex := rfl }
    rw [Terminal.handleDown, if_neg (by omega), if_pos hzero, h.historyPending]
    exact h'.showEntry _
  · rename_i i hs
    have hi : i < e.recent.length := Nat.lt_of_succ_lt (e.shown_lt (i + 1) hs)
    have hpos : t.historyIndex = (i + 1 : Nat) := by
      rw [hindex, hs]
      rfl
    have hprev : t.historyIndex - 1 = i := by omega
    have h' : Refines { t with historyIndex := i }
        { e with
          shown := some i
          shown_lt := fun j hj => by
            cases hj
            exact hi } := { h with historyIndex := rfl }
    rw [Terminal.handleDown, if_neg (by omega), if_neg (by omega), hprev, h.nthPreviousEntry,
      getElem?_eq_getElem hi]
    exact h'.showEntry _

theorem handleEnter (h : Refines t e) :
    ∃ t', t.handleEnter = some (t', .line (Utf8.encode e.edit.text)) ∧
      Refines t' { e with edit := .ofText [] } := by
  obtain ⟨u, hu, hd, hs⟩ := Draws.moveCursorToPos h.screen (Int.natCast_nonneg t.line.length)
  obtain ⟨v, hv, h'⟩ := h.displays ⟨u, rfl, hd.displayed, hs⟩
  cases hv
  unfold Terminal.handleEnter
  rw [hu]
  dsimp only [bind_eq_bind, bind_some]
  have hnew : OnScreen { u.queue [13, 10] with
      line := [], pos := 0, cursorX := 0, cursorY := 0, maxLine := 0 } :=
    ⟨Int.le_refl 0, Int.lt_of_le_of_lt hs.1 hs.2.1, Int.le_refl 0⟩
  rw [show (u.queue [13, 10]).line = e.edit.text from h'.line]
  exact ⟨_, rfl, { h' with line := rfl, pos := rfl, screen := hnew }⟩

theorem edited (h : ∃ t', x = some t' ∧ Refines t' e) :
    ∃ t', Terminal.edited x = some (t', .more) ∧ Refines t' e := by
  obtain ⟨t', rfl, h'⟩ := h
  exact ⟨t', rfl, h'⟩

def result : Option Bytes → Terminal.KeyResult
  | none => .more
  | some line => .line line

theorem handleCase (h : Refines t e) (key : Rune) (k : Key) :
    ∃ t', t.handleCase key k = some (t', result (e.handleCase key k).2) ∧
      Refines t' (e.handleCase key k).1 := by
  have hle := e.edit.pos_le
  have hpos := h.pos
  have hlen : t.line.length = e.edit.text.length := by rw [h.line]
  cases k with
  | backspace =>
    apply edited
    split
    · rename_i hz
      rw [Editor.handleCase, EditLine.erase_of_pos_eq_zero e.edit (by omega)]
      exact ⟨t, rfl, h⟩
    · exact h.erase rfl
  | altLeft =>
    apply edited
    obtain ⟨hcount, hstart⟩ := EditLine.countToLeftWord t e.edit
    rw [h.holding] at hcount
    rw [hcount]
    exact h.goTo (by omega)
  | altRight =>
    apply edited
    obtain ⟨hcount, hend⟩ := EditLine.countToRightWord t e.edit
    rw [h.holding] at hcount
    rw [hcount]
    exact h.goTo (by omega)
  | left | right | home | «end» =>
    apply edited
    split
    · exact ⟨t, rfl, h.goTo_of_pos (by omega)⟩
    · exact h.goTo (by omega)
  | up => exact edited h.handleUp
  | down => exact edited h.handleDown
  | enter => exact h.handleEnter
  | deleteWord =>
    apply edited
    obtain ⟨hcount, hstart⟩ := EditLine.countToLeftWord t e.edit
    rw [h.holding] at hcount
    rw [hcount]
    exact h.erase (by omega)
  | deleteLine =>
    apply edited
    have hd := Draws.deleteLine h.screen e.edit
    rw [h.holding] at hd
    exact h.edits hd
  | ctrlD =>
    rw [Editor.handleCase]
    split
    · rename_i hlt
      apply edited
      rw [if_pos (by omega)]
      exact (h.goTo_of_pos (by omega)).erase rfl
    · rename_i hge
      apply edited
      rw [if_neg (by omega)]
      exact ⟨t, rfl, h⟩
  | ctrlU =>
    exact edited (h.erase hpos)
  | clearScreen =>
    apply edited
    have hd := Draws.clearScreen h.screen e.edit
    rw [h.holding] at hd
    obtain ⟨u, hu, hdu, hs⟩ := hd
    exact h.displays ⟨u, hu, hdu.displayed, hs⟩
  | other =>
    rw [Terminal.handleCase, h.autoComplete, if_neg Bool.false_ne_true]
    exact edited (h.insertKey key)

theorem handleKey (h : Refines t e) (key : Rune) :
    ∃ t', t.handleKey key = some (t', result (e.handleKey key).2) ∧
      Refines t' (e.handleKey key).1 := by
  unfold Terminal.handleKey Editor.handleKey
  rw [h.pasteActive]
  split
  · exact edited (h.addKeyToLine key)
  · exact h.handleCase key _

theorem remember (h : Refines t e) (line : Bytes) :
    Refines (t.remember line) (e.remember line) := by
  have hadd : t.history.add line = .of (line :: e.history) := by
    rw [h.history]
    rfl
  unfold Terminal.remember Editor.remember
  by_cases he : e.echo = true
  · rw [if_pos he, if_pos (h.echo.trans he)]
    exact { h with history := hadd, historyIndex := rfl }
  · rw [if_neg he, if_neg (by rwa [h.echo])]
    exact h

end Refines

end XCryptoSsh
