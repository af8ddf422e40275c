import XCryptoSsh.TerminalScreen

namespace XCryptoSsh
set_option autoImplicit true

open Go (Bytes)
open Utf8 (Rune runeError validRune)
open Vt100 (Screen glyph)
open Machine List Terminal

def Terminal.output (t : Terminal) : Bytes := t.c.written ++ t.outBuf

def Conn.Works (c : Conn) : Prop := ∀ o ∈ c.outcomes, o = none

theorem Conn.Works.flush {t : Terminal} (h : t.c.Works) :
    t.flush.2.c.Works ∧ t.flush.2.output = t.output := by
  unfold Terminal.flush Terminal.output Conn.write
  cases ho : t.c.outcomes with
  | nil =>
    refine ⟨?_, append_nil _⟩
    intro o hm
    cases hm
  | cons o os =>
    have hnone := h o (by rw [ho]; exact mem_cons_self)
    subst hnone
    refine ⟨?_, append_nil _⟩
    intro o hm
    exact h o (by rw [ho]; exact mem_cons_of_mem _ hm)

theorem spot_cursor {t : Terminal} {w : Nat} (hs : OnScreen t) (hw : (w : Int) = t.termWidth) :
    t.cursorX = (t.spot % w : Nat) ∧ t.cursorY = (t.spot / w : Nat) := by
  obtain ⟨hx, hlt, hy⟩ := hs
  have hw' : t.termWidth.toNat = w := by omega
  obtain ⟨hdiv, hmod⟩ := (Screen.div_mod_eq_iff (show t.cursorX.toNat < w by omega)).mpr
    (show t.spot = t.cursorY.toNat * w + t.cursorX.toNat by rw [spot, hw'])
  omega

structure Watched (scr : Screen) (base : Bytes) (ps : List Rune) (t : Terminal) : Prop where
  works : t.c.Works
  echo : t.echo = true
  prompt : t.prompt = ps
  width : (scr.width : Int) = t.termWidth
  line : ∀ r ∈ t.line, glyph r = true
  shown : ∃ rs p, (∀ r ∈ rs, validRune r = true) ∧ t.output = base ++ Utf8.encode rs ∧
    Shown p t (scr.feed rs) ∧ (p = scr.row ∨ p = 0)

namespace Watched

variable {t t' : Terminal}

theorem congr (h : Watched scr base ps t) (hworks : t'.c.Works) (hout : t'.output = t.output)
    (ht : t' = { t with
      c := t'.c
      outBuf := t'.outBuf
      remainder := t'.remainder
      pasteActive := t'.pasteActive }) : Watched scr base ps t' := by
  obtain ⟨rs, p, hv, ho, hshown, hp⟩ := h.shown
  refine ⟨hworks, ?_, ?_, ?_, ?_, rs, p, hv, hout.trans ho, ?_, hp⟩
  · rw [ht]
    exact h.echo
  · rw [ht]
    exact h.prompt
  · rw [ht]
    exact h.width
  · rw [ht]
    exact h.line
  · rw [ht]
    exact ⟨hshown.at_, hshown.screen, hshown.spot, hshown.cells⟩

theorem handleKey (h : Watched scr base ps t) (hps : ∀ r ∈ ps, glyph r = true) (hr : Refines t e)
    (hk : t.handleKey key = some (t', .more)) (hline : ∀ r ∈ t'.line, glyph r = true) :
    Watched scr base ps t' := by
  obtain ⟨rs, p, hv, ho, hshown, hp⟩ := h.shown
  obtain ⟨⟨hprompt, hecho, hc, hwidth⟩, rs', p', hv', ho', hshown', hp'⟩ :=
    hshown.handleKey hr ⟨hshown.screen, h.echo, h.prompt ▸ hps⟩ h.line hk hline
  refine ⟨hc ▸ h.works, hecho.trans h.echo, hprompt.trans h.prompt, h.width.trans hwidth.symm,
    hline, rs ++ rs', p', ?_, ?_, ?_, ?_⟩
  · intro r hr
    exact (List.mem_append.mp hr).elim (hv r) (hv' r)
  · rw [Utf8.encode_append, ← append_assoc, ← ho, output, output, ho', hc,
      append_assoc]
  · rw [Screen.feed_append]
    exact hshown'
  rcases hp' with rfl | rfl
  · exact hp
  · exact .inr rfl

end Watched

namespace LineSession

/-- What a `ReadLine` that has not returned does, and only text that can be shown is in the line. -/
def Typing (s : LineSession) (a : LineAct) : Prop :=
  (a = .key ∨ ∃ b, a = .read b) ∧ ∀ s', s.step a = some s' → ∀ r ∈ s'.term.line, glyph r = true

def WatchedOr (scr : Screen) (base : Bytes) (ps : List Rune) (s : LineSession) : Prop :=
  s.pc = .idle ∨ (∃ es, Simulates s es) ∧ Watched scr base ps s.term

variable {s s' : LineSession}

theorem pc_finish (t : Terminal) (call : ReadCall) (line : Bytes) (err : Option Err) :
    (s.finish t call line err).pc = .idle := by
  cases call <;> rfl

theorem watched_turn (hps : ∀ r ∈ ps, glyph r = true) (h : Watched scr base ps s.term)
    (hr : Refines s.term e)
    (hline : ∀ r ∈ (s.turn call pasted key rest).term.line, glyph r = true) :
    (s.turn call pasted key rest).pc = .idle ∨
      Watched scr base ps (s.turn call pasted key rest).term := by
  revert hline
  unfold turn
  split
  · obtain ⟨hworks, hout⟩ := Conn.Works.flush (t := s.term.keepRest rest) h.works
    exact fun _ => .inr (h.congr hworks hout rfl)
  split
  · exact fun _ => .inl (pc_finish _ _ _ _)
  split
  · exact fun _ => .inr (h.congr h.works rfl rfl)
  split
  · exact fun _ => .inr (h.congr h.works rfl rfl)
  obtain ⟨t', ht', -⟩ := hr.handleKey key
  rw [ht']
  cases hres : (e.handleKey key).2 with
  | none =>
    rw [hres] at ht'
    exact fun hline => .inr (h.handleKey hps hr ht' hline)
  | some line => exact fun _ => .inl (pc_finish _ _ _ _)

theorem watched_step (hps : ∀ r ∈ ps, glyph r = true) (h : WatchedOr scr base ps s)
    (hg : Typing s a) (hs : s.step a = some s') : WatchedOr scr base ps s' := by
  obtain ⟨ha, hline⟩ := hg
  have hline := hline s' hs
  have hsized : SizedAct a := by
    rintro width rfl
    rcases ha with ha | ⟨b, ha⟩ <;> cases ha
  have hsim : s.pc ≠ .idle → (∃ es, Simulates s' es) ∧ Watched scr base ps s.term := by
    intro hpc
    obtain ⟨⟨es, hes⟩, hw⟩ := h.resolve_left hpc
    exact ⟨⟨_, hes.step hsized hs⟩, hw⟩
  cases moves_of_step hs with
  | @key call pasted rest k rest' hpc hk =>
    have hidle : s.pc ≠ .idle := by
      rw [hpc]
      nofun
    obtain ⟨⟨es, hes⟩, hw⟩ := h.resolve_left hidle
    rcases watched_turn hps hw hes.term hline with hi | hw'
    · exact .inl hi
    · exact .inr ⟨(hsim hidle).1, hw'⟩
  | @read call pasted b hpc hlen =>
    have hidle : s.pc ≠ .idle := by
      rw [hpc]
      nofun
    obtain ⟨hes, hw⟩ := hsim hidle
    exact .inr ⟨hes, hw.congr hw.works rfl rfl⟩
  | readLine | readPassword | readError | complete =>
    rcases ha with ha | ⟨b, ha⟩ <;> cases ha
  | other _ _ ho =>
    rcases ha with rfl | ⟨b, rfl⟩ <;> cases ho

theorem watched_begin (hr : Refines s.term e) (hidle : s.pc = .idle)
    (hecho : s.term.echo = true) (hcursor : s.term.cursorX = 0 ∧ s.term.cursorY = 0)
    (hline : s.term.line = []) (hworks : s.term.c.Works)
    (hprompt : ∀ r ∈ s.term.prompt, glyph r = true) (hwidth : (scr.width : Int) = s.term.termWidth)
    (hclear : scr.Clear) (hs : s.step .readLine = some s') :
    Watched scr s.term.output s.term.prompt s'.term := by
  obtain ⟨u, hu, hd, hscreen⟩ := Draws.writeLine hr.screen s.term.prompt
  have hprints := prints_writeLine hr.screen hprompt hu
  have hterm : s'.term = u.flush.2 := by
    unfold step at hs
    rw [hidle] at hs
    cases hs
    unfold begin showPrompt
    rw [if_pos hcursor, hu]
    rfl
  have hzero : s.term.spot = 0 := by
    rw [spot, hcursor.1, hcursor.2]
    exact Nat.zero_mul _
  have hpos : u.pos = 0 := by
    have hle := e.edit.pos_le
    rw [← hr.line, hline] at hle
    rw [hd.pos, hr.pos, Nat.le_zero.mp hle]
    rfl
  have hat : At scr.row s.term scr := by
    refine ⟨hclear.ready, hwidth, hclear.wrap, ?_, ?_⟩
    · rw [hcursor.2, Int.add_zero]
    · rw [hcursor.1, hclear.col]
      rfl
  obtain ⟨rs, hv, ho, hf⟩ := hprints.painted
  obtain ⟨hat', hcell, hwidth'⟩ := hf scr.row scr hat
  have hframe := hd.framed
  have hshown : Shown scr.row u (scr.feed rs) := by
    refine ⟨hat', hscreen, ?_, ?_⟩
    · rw [hprints.spot, hzero, hpos, hframe.1]
      omega
    intro i
    rw [hcell, hwidth', hzero, hframe.1, hd.line, hline, append_nil, Nat.add_zero]
    exact Screen.overlay_blank hclear.cells i
  have hw : Watched scr s.term.output s.term.prompt u := by
    refine ⟨hframe.2.2.1 ▸ hworks, hframe.2.1.trans hecho, hframe.1,
      hwidth.trans hframe.2.2.2.symm, ?_, rs, scr.row, hv, ?_, hshown, .inl rfl⟩
    · rw [hd.line, hline]
      simp
    · rw [output, ho, hframe.2.2.1, output, append_assoc]
  obtain ⟨hworks', hout⟩ := hw.works.flush
  rw [hterm]
  exact hw.congr hworks' hout rfl

/-- After every key of a `ReadLine` the screen has its cursor at the place in the line, and shows
the prompt, the line and nothing after it. -/
theorem readLine_shown {c : Conn} {prompt : Bytes} {width : Int} (hw : 1 ≤ width)
    {as₀ as : List LineAct} {s₀ s : LineSession}
    (hs₀ : exec step (opened c prompt width) as₀ = some s₀)
    (hsize : ∀ width, .setSize width ∈ as₀ → 1 ≤ width) (hidle : s₀.pc = .idle)
    (hecho : s₀.term.echo = true) (hcursor : s₀.term.cursorX = 0 ∧ s₀.term.cursorY = 0)
    (hline : s₀.term.line = []) (hworks : s₀.term.c.Works)
    (hprompt : ∀ r ∈ s₀.term.prompt, glyph r = true) {scr : Screen}
    (hwidth : (scr.width : Int) = s₀.term.termWidth) (hclear : scr.Clear)
    (hs : exec step s₀ (.readLine :: as) = some s)
    (htyping : ∀ s₁, s₀.step .readLine = some s₁ → Along step Typing s₁ as)
    (hopen : s.pc ≠ .idle) :
    ∃ out, ∃ p n : Nat, s.term.output = s₀.term.output ++ out ∧ (p = scr.row ∨ p = 0) ∧
      (n : Int) = s₀.term.prompt.length + s.term.pos ∧
      s.term.cursorX = (n % scr.width : Nat) ∧ s.term.cursorY = (n / scr.width : Nat) ∧
      (scr.display out).wrap = false ∧ (scr.display out).row = p + n / scr.width ∧
      (scr.display out).col = n % scr.width ∧ (scr.display out).width = scr.width ∧
      ∀ i, (scr.display out).cell (p * scr.width + i) =
        (s₀.term.prompt ++ s.term.line).getD i Screen.blank := by
  obtain ⟨s₁, hs₁, hrun⟩ := exec_cons_some hs
  have hes := (start_simulates c prompt hw).run (sizedActs hsize) hs₀
  have hbegin := watched_begin hes.term hidle hecho hcursor hline hworks hprompt hwidth hclear hs₁
  have hes₁ := hes.step (a := .readLine) nofun hs₁
  have hrun := run_invariant (I := WatchedOr scr s₀.term.output s₀.term.prompt) (G := Typing)
    (fun _ _ _ h hg hs => watched_step hprompt h hg hs) (.inr ⟨⟨_, hes₁⟩, hbegin⟩)
    (htyping s₁ hs₁) hrun
  obtain ⟨⟨es, hes⟩, hwatched⟩ := hrun.resolve_left hopen
  obtain ⟨rs, p, hv, ho, hshown, hp⟩ := hwatched.shown
  have hat := hshown.at_
  have hfeed := Screen.display_encode (s := scr) hv
  have hw' : (scr.feed rs).width = scr.width := by
    have hwidth' := hwatched.width
    have hwidth := hat.width
    omega
  obtain ⟨hx, hy⟩ := spot_cursor hshown.screen hwatched.width
  refine ⟨Utf8.encode rs, p, s.term.spot, ho, hp, ?_, hx, hy, ?_⟩
  · rw [← hwatched.prompt]
    exact hshown.spot
  rw [hfeed]
  have hrow := hat.row
  have hcol := hat.col
  refine ⟨hat.wrap, by omega, by omega, hw', ?_⟩
  intro i
  rw [← hw', ← hwatched.prompt]
  exact hshown.cells i

instance : (a : LineAct) → Decidable (∃ b, a = .read b)
  | .read b => isTrue ⟨b, rfl⟩
  | .readLine | .readPassword _ | .key | .readError _ | .complete _ | .write _ | .setSize _
  | .setPrompt _ => isFalse nofun

instance : Decidable (Typing s a) :=
  inferInstanceAs (Decidable ((_ ∨ _) ∧ ∀ s' ∈ s.step a, ∀ r ∈ s'.term.line, glyph r = true))

/-- `ab`, the left arrow and `c`, typed on a screen of three columns. -/
def arrowKeys : List LineAct :=
  [.key, .read [97, 98, 27, 91, 68, 99], .key, .key, .key, .key]

def blankScreen : Screen := ⟨3, fun _ _ => Screen.blank, 0, 0, false, .ground⟩

theorem readLine_shown_arrow :
    ∃ s, exec step (opened ⟨[], []⟩ [62, 45, 32] 3) (.readLine :: arrowKeys) = some s ∧
      ∃ out, ∃ p : Nat, s.term.output = out ∧ (blankScreen.display out).row = p + 1 ∧
      (blankScreen.display out).col = 2 ∧ ∀ i, (blankScreen.display out).cell (p * 3 + i) =
        ([62, 45, 32] ++ [97, 99, 98]).getD i Screen.blank := by
  obtain ⟨s, hs⟩ := Option.isSome_iff_exists.mp (show
    (exec step (opened ⟨[], []⟩ [62, 45, 32] 3) (.readLine :: arrowKeys)).isSome by
      decide +kernel)
  have hend : (exec step (opened ⟨[], []⟩ [62, 45, 32] 3) (.readLine :: arrowKeys)).map
      (fun s => (s.term.pos, s.term.line, decide (s.pc = .idle))) =
        some (2, [97, 99, 98], false) := by decide +kernel
  have hs₀ : exec step (opened ⟨[], []⟩ [62, 45, 32] 3) [] =
      some (opened ⟨[], []⟩ [62, 45, 32] 3) := rfl
  have hprompt : (opened ⟨[], []⟩ [62, 45, 32] 3).term.prompt = [62, 45, 32] := by
    decide +kernel
  have hclear : blankScreen.Clear := ⟨⟨by decide, nofun, rfl⟩, rfl, rfl, fun _ => rfl⟩
  have htyping : ∀ s₁, (opened ⟨[], []⟩ [62, 45, 32] 3).step .readLine = some s₁ →
      Along step Typing s₁ arrowKeys := by
    intro s₁ hs₁
    cases hs₁
    decide +kernel
  rw [hs] at hend
  obtain ⟨hp, hend⟩ := Prod.mk.inj (Option.some.inj hend)
  obtain ⟨hl, hpc⟩ := Prod.mk.inj hend
  obtain ⟨out, p, n, ho, -, hn, -, -, -, hrow, hcol, -, hcells⟩ :=
    readLine_shown (show (1 : Int) ≤ 3 by decide) hs₀ (fun _ hm => nomatch hm) rfl rfl ⟨rfl, rfl⟩
      rfl (fun _ hm => nomatch hm) (by rw [hprompt]; decide) rfl hclear hs htyping
      (of_decide_eq_false hpc)
  rw [hprompt, hp] at hn
  rw [hprompt, hl] at hcells
  have hn : n = 5 := Int.ofNat.inj hn
  subst hn
  exact ⟨s, hs, out, p, ho, hrow, hcol, hcells⟩

end LineSession

end XCryptoSsh
