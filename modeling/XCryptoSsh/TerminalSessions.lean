import XCryptoSsh.TerminalDisplay

namespace XCryptoSsh
set_option autoImplicit true

open Go (Bytes)
open Utf8 (Rune runeError)
open Machine List Option

namespace ReadCall

def isPassword : ReadCall → Bool
  | .readLine => false
  | .readPassword _ => true

end ReadCall

inductive Reader : ReaderPc → Option EditCall → Prop where
  | idle : Reader .idle none
  | keys : Reader (.keys call pasted rest) (some ⟨call.isPassword, pasted⟩)
  | reading : Reader (.reading call pasted) (some ⟨call.isPassword, pasted⟩)

theorem Reader.of_keys (h : Reader (.keys call pasted rest) c) :
    c = some ⟨call.isPassword, pasted⟩ := by
  cases h
  rfl

theorem Reader.of_reading (h : Reader (.reading call pasted) c) :
    c = some ⟨call.isPassword, pasted⟩ := by
  cases h
  rfl

structure Simulates (s : LineSession) (es : EditSession) : Prop where
  term : Refines s.term es.editor
  reader : Reader s.pc es.call
  lines : s.lines = es.lines
  passwords : s.passwords = es.passwords

namespace LineSession

def event (s : LineSession) : LineAct → List EditEvent
  | .readLine => [.begin false]
  | .readPassword _ => [.begin true]
  | .key =>
    match s.pc with
    | .keys _ _ rest =>
      let key := (bytesToKey rest s.term.pasteActive).1
      if key = runeError then [] else [.key key]
    | _ => []
  | .readError err => [.readError err]
  | _ => []

def events (s : LineSession) (as : List LineAct) : List EditEvent := observed step event s as

def SizedAct (a : LineAct) : Prop := ∀ width, a = .setSize width → 0 ≤ width

end LineSession

namespace Simulates

open LineSession

variable {s s' : LineSession} {es : EditSession}

theorem begin (h : Simulates s es) (call : ReadCall)
    (ht : Refines t { es.editor with echo := es.editor.echo && !call.isPassword }) :
    Simulates (s.begin call t) (es.begin call.isPassword) := by
  obtain ⟨t', ht', hr⟩ := ht.displays (.showPrompt ht.screen)
  unfold LineSession.begin EditSession.begin
  rw [ht', ← show t'.pasteActive = es.editor.pasteActive from hr.pasteActive]
  exact { h with term := hr, reader := .keys }

theorem finish (h : Simulates s es) (ht : Refines t e) (call : ReadCall) (line : Bytes)
    (err : Option Err) :
    Simulates (s.finish t call line err) (es.finish e call.isPassword line err) := by
  cases call with
  | readLine =>
    refine { h with term := ht, reader := .idle, lines := ?_ }
    change s.lines ++ _ = es.lines ++ _
    rw [h.lines]
  | readPassword oldPrompt =>
    refine { h with term := { ht with echo := rfl }, reader := .idle, passwords := ?_ }
    change s.passwords ++ _ = es.passwords ++ _
    rw [h.passwords]

theorem handled (h : Simulates s es) (call : ReadCall) (pasted : Bool) (key : Rune)
    (rest : Bytes) (r : Editor × Option Bytes) (ht : Refines t r.1) :
    Simulates (s.handled call pasted key rest (some (t, Refines.result r.2)))
      (es.handled ⟨call.isPassword, pasted⟩ r) := by
  obtain ⟨e, line⟩ := r
  cases line with
  | none => exact { h with term := ht, reader := .keys }
  | some line =>
    have hflush : Refines (t.keepRest rest).flush.2 e := { ht with fits := length_take_le _ _ }
    exact h.finish (hflush.remember line) call line _

theorem turn (h : Simulates s es) (hc : es.call = some ⟨call.isPassword, pasted⟩)
    (hk : key ≠ runeError) :
    Simulates (s.turn call pasted key rest) (es.key ⟨call.isPassword, pasted⟩ key) := by
  have ht := h.term
  unfold LineSession.turn EditSession.key
  dsimp only
  rw [if_neg hk, ht.pasteActive, ht.line]
  split
  · exact h.finish ht call _ _
  split
  · exact { h with term := { ht with line := rfl, pasteActive := rfl }, reader := .keys }
  split
  · refine { h with term := { ht with line := rfl, pasteActive := rfl }, reader := ?_ }
    rw [hc]
    exact .keys
  · obtain ⟨t', ht', hr⟩ := ht.handleKey key
    rw [ht']
    exact h.handled call _ key rest _ hr

theorem other (h : Simulates s es) (ha : SizedAct a) (hs : s.other a = some s') :
    Simulates s' es := by
  have hpos : 0 ≤ s.term.pos := by
    rw [h.term.pos]
    exact Int.natCast_nonneg _
  have hdisplays : ∀ x, Displays s.term x → Simulates (s.goOn (fun _ => s.pc) x) es := by
    intro x hx
    obtain ⟨t', rfl, ht'⟩ := h.term.displays hx
    exact { h with term := ht' }
  unfold LineSession.other at hs
  split at hs
  · cases hs
    exact hdisplays _ (.write h.term.screen hpos _)
  · rename_i width
    cases hs
    exact hdisplays _ (.setSize h.term.screen hpos (ha width rfl))
  · cases hs
    exact { h with term := { h.term with } }
  · cases hs

theorem event_other (hs : s.other a = some s') : s.event a = [] := by
  cases a with
  | write | setSize | setPrompt => rfl
  | _ => cases hs

theorem step (h : Simulates s es) (ha : SizedAct a) (hs : s.step a = some s') :
    Simulates s' ((s.event a).foldl EditSession.step es) := by
  have hreader := h.reader
  cases moves_of_step hs with
  | readLine hpc =>
    have ht : Refines s.term { es.editor with echo := es.editor.echo && !false } := by
      refine { h.term with echo := ?_ }
      rw [h.term.echo]
      exact (Bool.and_true _).symm
    exact h.begin .readLine ht
  | @readPassword prompt hpc =>
    have ht : Refines { s.term.setPrompt prompt with echo := false }
        { es.editor with echo := es.editor.echo && !true } :=
      { h.term with echo := (Bool.and_false _).symm }
    exact h.begin (.readPassword s.term.prompt) ht
  | @key call pasted rest k rest' hpc hk =>
    have hevent : s.event .key = if k = runeError then [] else [.key k] := by
      simp only [event, hpc, hk]
    rw [hpc] at hreader
    have hc := hreader.of_keys
    rw [hevent]
    split
    · rename_i hrune
      rw [LineSession.turn, if_pos hrune]
      refine { h with term := { h.term with fits := length_take_le _ _ }, reader := ?_ }
      rw [foldl_nil, hc]
      exact .reading
    · rename_i hrune
      change Simulates _ (es.call.elim es (es.key · k))
      rw [hc]
      exact h.turn hc hrune
  | @read call pasted b hpc hlen =>
    rw [hpc] at hreader
    refine { h with term := { h.term with fits := ?_ }, reader := ?_ }
    · rwa [← length_append] at hlen
    change Reader _ es.call
    rw [hreader.of_reading]
    exact .keys
  | @readError call pasted err hpc =>
    rw [hpc] at hreader
    change Simulates _ (es.call.elim es fun c => es.finish es.editor c.password [] (some err))
    rw [hreader.of_reading]
    exact h.finish h.term call [] (some err)
  | complete hpc =>
    -- without a callback nothing waits for one
    rw [hpc] at hreader
    cases hreader
  | other hkeys hpanicked ho =>
    rw [event_other ho]
    exact h.other ha ho

theorem pc_ne (h : Simulates s es) : s.pc ≠ .panicked := by
  intro hpc
  have hreader := h.reader
  rw [hpc] at hreader
  cases hreader

theorem run (h : Simulates s es) (ha : ∀ a ∈ as, SizedAct a)
    (hs : exec LineSession.step s as = some s') :
    Simulates s' ((s.events as).foldl EditSession.step es) :=
  run_simulates (G := fun _ a => SizedAct a) EditSession.step
    (fun _ _ _ _ h ha hs => h.step ha hs) h (along_of_forall fun a hm _ => ha a hm) hs

end Simulates

namespace LineSession

def opened (c : Conn) (prompt : Bytes) (width : Int) : LineSession :=
  start { Terminal.newTerminal c prompt false with termWidth := width }

theorem start_simulates (c : Conn) (prompt : Bytes) (hw : 1 ≤ width) :
    Simulates (opened c prompt width) .start where
  term :=
    { line := rfl
      pos := rfl
      echo := rfl
      pasteActive := rfl
      history := rfl
      historyIndex := rfl
      historyPending := rfl
      autoComplete := rfl
      fits := Nat.zero_le _
      screen := ⟨Int.le_refl 0, hw, Int.le_refl 0⟩ }
  reader := .idle
  lines := rfl
  passwords := rfl

theorem sizedActs {as : List LineAct} (h : ∀ width, .setSize width ∈ as → 1 ≤ width) :
    ∀ a ∈ as, SizedAct a := by
  intro a ha width he
  have hw := h width (he ▸ ha)
  omega

/-- Two terminals that take the same keys return the same lines and keep the same history, whatever
is done to their displays. -/
theorem lines_of_same_keys {c₁ c₂ : Conn} {prompt₁ prompt₂ : Bytes} {width₁ width₂ : Int}
    (hw₁ : 1 ≤ width₁) (hw₂ : 1 ≤ width₂) {as₁ as₂ : List LineAct} {s₁ s₂ : LineSession}
    (hs₁ : exec step (opened c₁ prompt₁ width₁) as₁ = some s₁)
    (hs₂ : exec step (opened c₂ prompt₂ width₂) as₂ = some s₂)
    (hsize₁ : ∀ width, .setSize width ∈ as₁ → 1 ≤ width)
    (hsize₂ : ∀ width, .setSize width ∈ as₂ → 1 ≤ width)
    (hkeys : events (opened c₁ prompt₁ width₁) as₁ = events (opened c₂ prompt₂ width₂) as₂) :
    s₁.lines = s₂.lines ∧ s₁.passwords = s₂.passwords ∧ s₁.term.history = s₂.term.history ∧
      s₁.pc ≠ .panicked ∧ s₂.pc ≠ .panicked := by
  have h₁ := (start_simulates c₁ prompt₁ hw₁).run (sizedActs hsize₁) hs₁
  have h₂ := (start_simulates c₂ prompt₂ hw₂).run (sizedActs hsize₂) hs₂
  rw [hkeys] at h₁
  refine ⟨?_, ?_, ?_, h₁.pc_ne, h₂.pc_ne⟩
  · rw [h₁.lines, h₂.lines]
  · rw [h₁.passwords, h₂.passwords]
  · rw [h₁.term.history, h₂.term.history]

def narrowRun : List LineAct :=
  [.readLine, .key, .read [97], .key, .key, .write [120, 10], .setSize 3, .read [98, 13], .key,
    .key]

def wideRun : List LineAct :=
  [.setPrompt [36], .readLine, .key, .read [97, 98, 13], .key, .key, .key]

theorem lines_of_same_keys_narrow :
    ∃ s₁ s₂, exec step (opened ⟨[], []⟩ [62, 32] 1) narrowRun = some s₁ ∧
      exec step (opened ⟨[], []⟩ [] 80) wideRun = some s₂ ∧ s₁.lines = [([97, 98], none)] ∧
      s₁.lines = s₂.lines := by
  obtain ⟨s₁, hs₁⟩ := isSome_iff_exists.mp
    (show (exec step (opened ⟨[], []⟩ [62, 32] 1) narrowRun).isSome by decide +kernel)
  obtain ⟨s₂, hs₂⟩ := isSome_iff_exists.mp
    (show (exec step (opened ⟨[], []⟩ [] 80) wideRun).isSome by decide +kernel)
  have hlines : (exec step (opened ⟨[], []⟩ [62, 32] 1) narrowRun).map LineSession.lines =
      some [([97, 98], none)] := by decide +kernel
  rw [hs₁] at hlines
  refine ⟨s₁, s₂, hs₁, hs₂, some.inj hlines, ?_⟩
  exact (lines_of_same_keys (by decide) (by decide) hs₁ hs₂
    (fun width hm => by simp [narrowRun] at hm; omega) (fun width hm => by simp [wideRun] at hm)
    (by decide +kernel)).1

/-- Between the steps the cursor is in the line and on the screen, what is left fits into `inBuf`,
and the history has the entry that is shown; nothing panics. -/
theorem consistent (c : Conn) (prompt : Bytes) {as : List LineAct} {s : LineSession}
    (hsize : ∀ width, .setSize width ∈ as → 0 ≤ width)
    (hs : exec step (start (Terminal.newTerminal c prompt false)) as = some s) :
    s.pc ≠ .panicked ∧ 0 ≤ s.term.pos ∧ s.term.pos ≤ s.term.line.length ∧ 0 ≤ s.term.cursorX ∧
      s.term.cursorX < s.term.termWidth ∧ 0 ≤ s.term.cursorY ∧
      s.term.remainder.length ≤ inBufSize ∧ (s.term.historyIndex = -1 ∨
        0 ≤ s.term.historyIndex ∧ s.term.historyIndex < s.term.history.size) := by
  have hsim := (start_simulates c prompt (show (1 : Int) ≤ 80 by decide)).run
    (fun a ha width he => hsize width (he ▸ ha)) hs
  obtain ⟨e, ht⟩ : ∃ e, Refines s.term e := ⟨_, hsim.term⟩
  refine ⟨hsim.pc_ne, ?_, ?_, ht.screen.1, ht.screen.2.1, ht.screen.2.2, ht.fits, ?_⟩
  · rw [ht.pos]
    exact Int.natCast_nonneg _
  · rw [ht.pos, ht.line]
    exact Int.ofNat_le.mpr e.edit.pos_le
  rw [ht.historyIndex, ht.history]
  cases hshown : e.shown with
  | none => exact .inl rfl
  | some i =>
    have hi := e.shown_lt i hshown
    rw [length_take, Nat.min_comm, ← StRingBuffer.size_of] at hi
    exact .inr ⟨Int.natCast_nonneg i, Int.ofNat_lt.mpr hi⟩

theorem consistent_narrow : ∃ s, exec step (start (Terminal.newTerminal ⟨[], []⟩ [62, 32] false))
    narrowRun = some s ∧ s.term.cursorX < s.term.termWidth := by
  obtain ⟨s, hs⟩ := isSome_iff_exists.mp (show (exec step (start
    (Terminal.newTerminal ⟨[], []⟩ [62, 32] false)) narrowRun).isSome by decide +kernel)
  exact ⟨s, hs, (consistent _ _ (fun width hm => by simp [narrowRun] at hm; omega) hs).2.2.2.2.1⟩

end LineSession

end XCryptoSsh
