import XCryptoSsh.TerminalPairs

namespace XCryptoSsh
set_option autoImplicit true

open Go (Bytes)
open Utf8 (Rune runeError)
open Machine List Option Prod

def pasteAfter (pasteActive : Bool) (key : Rune) : Bool :=
  if pasteActive then key != keyPasteEnd else key == keyPasteStart

inductive Alike : Bool → Bytes → Bytes → Prop where
  | same (b : Bytes) : Alike p b b
  | stop : bytesToKey b₁ p = (runeError, r₁) → bytesToKey b₂ p = (runeError, r₂) → Alike p b₁ b₂
  | enter : bytesToKey b₁ p = (keyEnter, r) → bytesToKey b₂ p = (keyEnter, r) → Alike p b₁ b₂
  | key : bytesToKey b₁ p = (k, r₁) → bytesToKey b₂ p = (k, r₂) → k ≠ runeError →
      k ≠ keyEnter → Alike (pasteAfter p k) r₁ r₂ → Alike p b₁ b₂
  | typed : bytesToKey b₁ p = (k₁, r₁) → bytesToKey b₂ p = (k₂, r₂) → typable k₁ = true →
      typable k₂ = true → Alike p r₁ r₂ → Alike p b₁ b₂

inductive NextKeys (p : Bool) : Rune × Bytes → Rune × Bytes → Prop where
  | stop : NextKeys p (runeError, r₁) (runeError, r₂)
  | enter : NextKeys p (keyEnter, r) (keyEnter, r)
  | key : k ≠ runeError → k ≠ keyEnter → Alike (pasteAfter p k) r₁ r₂ →
      NextKeys p (k, r₁) (k, r₂)
  | typed : typable k₁ = true → typable k₂ = true → Alike p r₁ r₂ →
      NextKeys p (k₁, r₁) (k₂, r₂)

theorem Alike.next (h : Alike p b₁ b₂) : NextKeys p (bytesToKey b₁ p) (bytesToKey b₂ p) := by
  cases h with
  | same b =>
    obtain ⟨k, r⟩ := bytesToKey b₁ p
    by_cases hr : k = runeError
    · rw [hr]
      exact .stop
    by_cases he : k = keyEnter
    · rw [he]
      exact .enter
    · exact .key hr he (.same r)
  | stop h₁ h₂ =>
    rw [h₁, h₂]
    exact .stop
  | enter h₁ h₂ =>
    rw [h₁, h₂]
    exact .enter
  | key h₁ h₂ hr he ha =>
    rw [h₁, h₂]
    exact .key hr he ha
  | typed h₁ h₂ ht₁ ht₂ ha =>
    rw [h₁, h₂]
    exact .typed ht₁ ht₂ ha

abbrev Veiled (p : Bool) : Terminal → Terminal → Prop := Paired (some p)

namespace Paired

variable {t u : Terminal}

theorem mk (t : Terminal) (line : List Rune) (remainder : Bytes) (he : t.echo = false)
    (hp : t.pasteActive = p) (hl : t.line.length = line.length) :
    Veiled p t { t with line, remainder } :=
  .intro t line t.c t.outBuf remainder ⟨hl, nofun⟩ fun _ hv =>
    ⟨he, hp.trans (some.inj hv), rfl, rfl⟩

theorem exists_eq (h : Veiled p t u) : ∃ line remainder, t.echo = false ∧ t.pasteActive = p ∧
    t.line.length = line.length ∧ u = { t with line, remainder } := by
  cases h with
  | intro line c outBuf remainder hl hv =>
    obtain ⟨he, hp, rfl, rfl⟩ := hv p rfl
    exact ⟨line, remainder, he, hp, hl.1, rfl⟩

theorem refl {t : Terminal} (h : t.echo = false) : Veiled t.pasteActive t t :=
  mk t t.line t.remainder h rfl rfl

section

variable (h : Veiled p t u)

include h

theorem silent : t.echo = false ∧ u.echo = false := by
  obtain ⟨line, remainder, he, hp, hl, rfl⟩ := h.exists_eq
  exact ⟨he, he⟩

theorem paste : t.pasteActive = p ∧ u.pasteActive = p := by
  obtain ⟨line, remainder, he, hp, hl, rfl⟩ := h.exists_eq
  exact ⟨hp, hp⟩

theorem line_nil (hl : t.line = []) : u.line = [] :=
  (h.line_eq (.inr hl)).trans hl

theorem c : u.c = t.c := by
  obtain ⟨line, remainder, he, hp, hl, rfl⟩ := h.exists_eq
  rfl

theorem setPaste (q : Bool) : Veiled q { t with pasteActive := q } { u with pasteActive := q } := by
  obtain ⟨line, remainder, he, hp, hl, rfl⟩ := h.exists_eq
  exact mk _ line remainder he rfl hl

theorem setConn (c : Conn) (b : Bytes) :
    Veiled p { t with c, outBuf := b } { u with c, outBuf := b } := by
  obtain ⟨line, remainder, he, hp, hl, rfl⟩ := h.exists_eq
  exact .mk _ line remainder he hp hl

theorem keepRest (r₁ r₂ : Bytes) : Veiled p (t.keepRest r₁) (u.keepRest r₂) := by
  obtain ⟨line, remainder, he, hp, hl, rfl⟩ := h.exists_eq
  exact .mk (t.keepRest r₁) line _ he hp hl

theorem setPrompt (prompt : Bytes) : Veiled p (t.setPrompt prompt) (u.setPrompt prompt) := by
  obtain ⟨line, remainder, he, hp, hl, rfl⟩ := h.exists_eq
  exact .mk _ line remainder he hp hl

theorem clearRows {dir : Terminal → Option Terminal}
    (hdir : ∀ a b, Veiled p a b → Option.Rel (Veiled p) (dir a) (dir b)) (n : Nat) :
    Option.Rel (Veiled p) (t.clearRows dir n) (u.clearRows dir n) := by
  apply rel_repeatTimes _ h
  intro a b hab
  exact rel_map (hdir a b hab) fun _ _ h' => h'.queue _

theorem clearInput : Option.Rel (Veiled p) t.clearInput u.clearInput := by
  have hmove := h.move 0 0 t.cursorX 0
  obtain ⟨line, remainder, he, hp, hl, rfl⟩ := h.exists_eq
  apply rel_bind hmove
  intro a b _ hab
  obtain ⟨line, remainder, he, hp, hl, rfl⟩ := hab.exists_eq
  have hx : Veiled p { a with cursorX := 0 } { a with cursorX := 0, line, remainder } :=
    .mk _ line remainder he hp hl
  apply rel_bind ((hx.queue _).clearRows (fun _ _ h' => h'.move 1 0 0 0) a.cursorY.toNat)
  intro a b _ hab
  obtain ⟨line, remainder, he, hp, hl, rfl⟩ := hab.exists_eq
  exact .some (.mk _ line remainder he hp hl)

theorem showInput : Option.Rel (Veiled p) t.showInput u.showInput := by
  have hprompt := h.writeLine t.prompt
  obtain ⟨line, remainder, he, hp, hl, rfl⟩ := h.exists_eq
  apply rel_bind hprompt
  intro a b _ hab
  simp only [hab.silent.1, hab.silent.2, hab.pos, Bool.false_eq_true, ↓reduceIte,
    bind_eq_bind, bind_some]
  exact hab.moveCursorToPos a.pos

theorem write (buf : Bytes) :
    Option.Rel (fun r₁ r₂ => Veiled p r₁.2.2 r₂.2.2) (t.write buf) (u.write buf) := by
  have hclear := h.clearInput
  obtain ⟨line, remainder, he, hp, hl, rfl⟩ := h.exists_eq
  simp only [Terminal.write]
  split
  · exact .some (.mk _ line remainder he hp hl)
  apply rel_bind hclear
  intro a b _ hab
  have hshow := fun c => (hab.setConn c []).showInput
  obtain ⟨line, remainder, he, hp, hl, rfl⟩ := hab.exists_eq
  obtain ⟨n₁, err₁, c₁⟩ := a.c.write a.outBuf
  cases err₁ with
  | some err => exact .some (.mk _ line remainder he hp hl)
  | none =>
    dsimp only
    obtain ⟨n₂, err₂, c₂⟩ := c₁.writeWithCRLF buf
    cases err₂ with
    | some err => exact .some (.mk _ line remainder he hp hl)
    | none =>
      apply rel_bind (hshow c₂)
      intro a b _ hab
      obtain ⟨line, remainder, he, hp, hl, rfl⟩ := hab.exists_eq
      obtain ⟨n₃, err₃, c₃⟩ := a.c.write a.outBuf
      cases err₃ with
      | some err | none => exact .some (.mk _ line remainder he hp hl)

theorem clearAndRepaint (hl : t.line = []) (n : Int) :
    Option.Rel (Veiled p) (t.clearAndRepaintLinePlusNPrevious n)
      (u.clearAndRepaintLinePlusNPrevious n) := by
  have hmove := h.move t.cursorY 0 t.cursorX 0
  obtain ⟨line, remainder, he, hp, hlen, rfl⟩ := h.exists_eq
  apply rel_bind hmove
  intro a b ha hab
  apply rel_bind (((hab.setCursor 0 0).queue _).clearRows (fun _ _ h' => h'.move 0 1 0 0) n.toNat)
  intro c d hc hcd
  apply rel_bind (hcd.move n.toNat 0 0 0)
  intro a' b' ha' hab'
  have hadv := ((hab'.setCursor 0 0).queue a'.prompt).advanceCursor (visualLength a'.prompt)
  obtain ⟨line', remainder', he', hp', hlen', rfl⟩ := hab'.exists_eq
  apply rel_bind hadv
  intro e f he hef
  -- the line is still the one of the beginning
  have hdrawn : Drawn t e :=
    ((((((Drawn.move ha).trans (Drawn.setCursor a 0 0)).trans (Drawn.queue _ _)).trans
      (Drawn.clearRows (fun _ _ h => Drawn.move h) hc)).trans (Drawn.move ha')).trans
        (Drawn.setCursor a' 0 0)).trans ((Drawn.queue _ _).trans (Drawn.advanceCursor he))
  have hl₁ : e.line = [] := hdrawn.line.trans hl
  rw [hl₁, hef.line_nil hl₁]
  apply rel_bind (hef.writeLine [])
  intro g k _ hgk
  rw [hgk.pos]
  exact hgk.moveCursorToPos _

theorem setSize (width : Int) (hg : t.line = [] ∨ (if width = 0 then 1 else width) = t.termWidth) :
    Option.Rel (fun r₁ r₂ => Veiled p r₁.2 r₂.2) (t.setSize width) (u.setSize width) := by
  have hnil := h.line_nil
  obtain ⟨line, remainder, he, hp, hl, rfl⟩ := h.exists_eq
  simp only [Terminal.setSize]
  generalize (if width = 0 then 1 else width) = w at hg
  have h' : ∀ x y, Veiled p { t with termWidth := w, cursorX := x, cursorY := y }
      { t with line, remainder, termWidth := w, cursorX := x, cursorY := y } :=
    fun x y => .mk _ line remainder he hp hl
  by_cases hw : w = t.termWidth
  · rw [if_pos hw, if_pos hw]
    exact .some (h' t.cursorX t.cursorY)
  have hl₁ : t.line = [] := hg.resolve_right hw
  have hl₂ : line = [] := hnil hl₁
  rw [if_neg hw, if_neg hw]
  by_cases hcur : t.cursorX = 0 ∧ t.cursorY = 0
  · rw [if_pos ⟨hl₁, hcur⟩, if_pos ⟨hl₂, hcur⟩]
    exact .some (h' t.cursorX t.cursorY)
  have hc₁ : ¬ (t.line = [] ∧ t.cursorX = 0 ∧ t.cursorY = 0) := fun hc => hcur hc.2
  have hc₂ : ¬ (line = [] ∧ t.cursorX = 0 ∧ t.cursorY = 0) := fun hc => hcur hc.2
  rw [if_neg hc₁, if_neg hc₂]
  split
  · apply rel_map ((h' _ _).clearAndRepaint hl₁ _)
    intro _ _ hab
    exact hab.flush
  · apply rel_map ((h' t.cursorX t.cursorY).clearAndRepaint hl₁ _)
    intro _ _ hab
    exact hab.flush

end

end Paired

def ReaderPc.secret : ReaderPc → Bool
  | .keys (.readPassword _) _ _ | .reading (.readPassword _) _
  | .completing (.readPassword _) _ _ _ => true
  | _ => false

namespace LineSession

def nextKey (s : LineSession) : Rune :=
  match s.pc with
  | .keys _ _ rest => (bytesToKey rest s.term.pasteActive).1
  | _ => runeError

section

variable (s : LineSession × LineSession)

def SameInput : LineAct → LineAct → Prop
  | .read b₁, .read b₂ =>
    Alike s.1.term.pasteActive (s.1.term.remainder ++ b₁) (s.2.term.remainder ++ b₂)
  | .complete a₁, .complete a₂ => AlikeAnswer a₁ a₂
  | a₁, a₂ => a₁ = a₂

/-- The two sessions differ only in the characters typed while a password is read. -/
def SameButTyped (a : LineAct × LineAct) : Prop :=
  if s.1.pc.secret then SameInput s a.1 a.2 else a.1 = a.2

def Consumed : Prop := s.1.term.remainder = s.2.term.remainder

/-- While a password is read, no key looks at the line, the line is not repainted, and the password
is not left behind in the line or in the bytes still to be read. -/
def KeepsSecret : LineAct → Prop
  | .key =>
    s.1.term.Careful s.1.nextKey ∧
      (s.1.term.pasteActive = false ∧ s.1.nextKey = keyCtrlD ∧ s.1.term.line = [] → Consumed s)
  | .readError _ => s.1.term.line = [] ∧ Consumed s
  | .setSize width =>
    s.1.term.line = [] ∨ (if width = 0 then 1 else width) = s.1.term.termWidth
  | _ => True

def Discreet (a : LineAct × LineAct) : Prop :=
  s.1.pc.secret = true → KeepsSecret s a.1

end

inductive Unseen : LineSession → LineSession → Prop where
  | outside (s : LineSession) (ps : List (Bytes × Option Err)) :
      s.pc.secret = false → Unseen s { s with passwords := ps }
  | keys : Veiled p t₁ t₂ → Alike p r₁ r₂ →
      Unseen ⟨t₁, .keys (.readPassword old) pasted r₁, ls, ps₁⟩
        ⟨t₂, .keys (.readPassword old) pasted r₂, ls, ps₂⟩
  | reading : Veiled p t₁ t₂ →
      Unseen ⟨t₁, .reading (.readPassword old) pasted, ls, ps₁⟩
        ⟨t₂, .reading (.readPassword old) pasted, ls, ps₂⟩
  | completing : Veiled p t₁ t₂ → SameKey k₁ k₂ → Alike p r₁ r₂ →
      Unseen ⟨t₁, .completing (.readPassword old) pasted k₁ r₁, ls, ps₁⟩
        ⟨t₂, .completing (.readPassword old) pasted k₂ r₂, ls, ps₂⟩
  | panicked : Veiled p t₁ t₂ →
      Unseen ⟨t₁, .panicked, ls, ps₁⟩ ⟨t₂, .panicked, ls, ps₂⟩

namespace Unseen

theorem observed (h : Unseen s₁ s₂) :
    s₁.term.c.written = s₂.term.c.written ∧ s₁.lines = s₂.lines := by
  cases h with
  | outside ps hs => exact ⟨rfl, rfl⟩
  | keys h _ | reading h | completing h _ _ | panicked h =>
    exact ⟨congrArg Conn.written h.c.symm, rfl⟩

end Unseen

section Outside

variable (s : LineSession) (ps : List (Bytes × Option Err))

theorem goOn_outside (f : Terminal → ReaderPc) (hf : ∀ t, (f t).secret = false)
    (t : Option Terminal) : Unseen (s.goOn f t) ({ s with passwords := ps }.goOn f t) := by
  cases t with
  | none => exact .outside _ ps rfl
  | some t => exact .outside _ ps (hf t)

theorem handled_outside (pasted : Bool) (key : Rune) (rest : Bytes)
    (r : Option (Terminal × Terminal.KeyResult)) :
    Unseen (s.handled .readLine pasted key rest r)
      ({ s with passwords := ps }.handled .readLine pasted key rest r) := by
  cases r with
  | none => exact .outside _ ps rfl
  | some r =>
    obtain ⟨t, r⟩ := r
    cases r <;> exact .outside _ ps rfl

theorem turn_outside (pasted : Bool) (key : Rune) (rest : Bytes) :
    Unseen (s.turn .readLine pasted key rest)
      ({ s with passwords := ps }.turn .readLine pasted key rest) := by
  simp only [turn]
  split
  · exact .outside _ ps rfl
  split
  · exact .outside _ ps rfl
  split
  · exact .outside _ ps rfl
  split
  · exact .outside _ ps rfl
  · exact handled_outside s ps _ _ _ _

theorem other_outside (hs : s.pc.secret = false) (h₁ : s.other a = some s₁)
    (h₂ : { s with passwords := ps }.other a = some s₂) : Unseen s₁ s₂ := by
  cases a with
  | write buf | setSize width =>
    cases h₁
    cases h₂
    exact goOn_outside s ps _ (fun _ => hs) _
  | setPrompt prompt =>
    cases h₁
    cases h₂
    exact .outside _ ps hs
  | _ => cases h₁

end Outside

theorem begin_unseen (s : LineSession) (ps : List (Bytes × Option Err)) (old : List Rune)
    {t : Terminal} (ht : t.echo = false) :
    Unseen (s.begin (.readPassword old) t)
      ({ s with passwords := ps }.begin (.readPassword old) t) := by
  unfold begin
  cases h : t.showPrompt with
  | none => exact .outside _ ps rfl
  | some u => exact .keys (.refl ((showPrompt_keeps h).1.trans ht)) (.same _)

theorem unseen_step_outside {s : LineSession} (hs : s.pc.secret = false)
    (h₁ : s.step a = some s₁) (h₂ : { s with passwords := ps }.step a = some s₂) :
    Unseen s₁ s₂ := by
  have hother : s.other a = some s₁ → { s with passwords := ps }.other a = some s₂ →
      Unseen s₁ s₂ := other_outside s ps hs
  obtain ⟨t, pc, ls, ps'⟩ := s
  cases pc with
  | idle =>
    cases a with
    | readLine =>
      cases h₁
      cases h₂
      exact goOn_outside _ ps _ (fun _ => rfl) _
    | readPassword prompt =>
      cases h₁
      cases h₂
      exact begin_unseen _ ps _ rfl
    | _ => exact hother h₁ h₂
  | keys call pasted rest =>
    cases call with
    | readPassword old => cases hs
    | readLine =>
      cases a with
      | key =>
        cases h₁
        cases h₂
        exact turn_outside _ ps _ _ _
      | _ => cases h₁
  | reading call pasted =>
    cases call with
    | readPassword old => cases hs
    | readLine =>
      cases a with
      | read b =>
        simp only [step] at h₁ h₂
        split at h₁
        · rename_i hlen
          rw [if_pos hlen] at h₂
          cases h₁
          cases h₂
          exact .outside _ ps rfl
        · cases h₁
      | readError err =>
        cases h₁
        cases h₂
        exact .outside _ ps rfl
      | _ => exact hother h₁ h₂
  | completing call pasted key rest =>
    cases call with
    | readPassword old => cases hs
    | readLine =>
      cases a with
      | complete result =>
        cases h₁
        cases h₂
        exact goOn_outside _ ps _ (fun _ => rfl) _
      | _ => exact hother h₁ h₂
  | panicked => cases a <;> cases h₁

theorem veiled_finish (h : Veiled p t u) (hl : t.line = []) (hr : t.remainder = u.remainder) :
    u = t := by
  have hu := h.line_nil hl
  obtain ⟨line, remainder, he, hp, hlen, rfl⟩ := h.exists_eq
  cases t
  cases hl
  cases hu
  cases hr
  rfl

theorem finish_unseen (h : Veiled p t u) (hl : t.line = []) (hr : t.remainder = u.remainder) :
    Unseen (finish ⟨x₁, pc₁, ls, ps₁⟩ t (.readPassword old) l₁ err)
      (finish ⟨x₂, pc₂, ls, ps₂⟩ u (.readPassword old) l₂ err) := by
  rw [veiled_finish h hl hr]
  exact .outside _ _ rfl

theorem goOn_unseen {x y : Option Terminal} (hx : Option.Rel (Veiled p) x y) (hv : Veiled q t₁ t₂)
    (hpc : ∀ t u, Veiled p t u → Unseen ⟨t, f₁ t, ls, ps₁⟩ ⟨u, f₂ u, ls, ps₂⟩) :
    Unseen (goOn ⟨t₁, pc₁, ls, ps₁⟩ f₁ x) (goOn ⟨t₂, pc₂, ls, ps₂⟩ f₂ y) := by
  cases hx with
  | none => exact .panicked hv
  | some h => exact hpc _ _ h

theorem handled_unseen {x y : Option (Terminal × Terminal.KeyResult)}
    (hx : Option.Rel (SameOutcome (some p) k₁) x y) (hv : Veiled p t₁ t₂) (hk : SameKey k₁ k₂)
    (hr : Alike p r₁ r₂) (henter : k₁ = keyEnter → r₁ = r₂) :
    Unseen (handled ⟨t₁, pc₁, ls, ps₁⟩ (.readPassword old) pasted k₁ r₁ x)
      (handled ⟨t₂, pc₂, ls, ps₂⟩ (.readPassword old) pasted k₂ r₂ y) := by
  cases hx with
  | none => exact .panicked hv
  | some h =>
    cases h with
    | more h => exact .keys h hr
    | complete h => exact .completing h hk hr
    | @line t u l₁ l₂ h hl he =>
      -- without echo nothing is remembered
      have hrem : ∀ (v : Terminal) l, v.echo = false → v.remember l = v := by
        intro v l hv
        rw [Terminal.remember, hv]
        rfl
      have hf := (h.keepRest r₁ r₂).flush
      simp only [handled]
      rw [hrem _ _ hf.silent.1, hrem _ _ hf.silent.2]
      apply finish_unseen hf hl
      rw [henter he]
      rfl

def loopKeys : List Rune := [runeError, keyCtrlD, keyPasteStart, keyPasteEnd]

theorem turn_handled {s : LineSession} (h : ∀ k ∈ loopKeys, key ≠ k) :
    s.turn call pasted key rest =
      s.handled call (s.term.pasteActive && pasted) key rest (s.term.handleKey key) := by
  simp only [loopKeys, forall_mem_cons] at h
  rw [turn, if_neg h.1, if_neg fun hd => h.2.1 hd.2.1, if_neg fun hs => h.2.2.1 hs.2,
    if_neg fun he => h.2.2.2.1 he.2]

theorem pasteAfter_eq (hs : ¬ (p = false ∧ k = keyPasteStart))
    (he : ¬ (p = true ∧ k = keyPasteEnd)) : pasteAfter p k = p := by
  cases p with
  | false => exact beq_eq_false_iff_ne.mpr fun hk => hs ⟨rfl, hk⟩
  | true => exact bne_iff_ne.mpr fun hk => he ⟨rfl, hk⟩

theorem turn_unseen (hv : Veiled p t₁ t₂) (hn : NextKeys p (k₁, r₁) (k₂, r₂))
    (hc : t₁.Careful k₁)
    (heof : t₁.pasteActive = false ∧ k₁ = keyCtrlD ∧ t₁.line = [] →
      t₁.remainder = t₂.remainder) :
    Unseen (turn ⟨t₁, pc₁, ls, ps₁⟩ (.readPassword old) pasted k₁ r₁)
      (turn ⟨t₂, pc₂, ls, ps₂⟩ (.readPassword old) pasted k₂ r₂) := by
  obtain ⟨hp₁, hp₂⟩ := hv.paste
  cases hn with
  | stop =>
    rw [turn, turn, if_pos rfl, if_pos rfl]
    exact .reading (hv.keepRest r₁ r₂).flush
  | enter =>
    have hne : ∀ k ∈ loopKeys, keyEnter ≠ k := by decide
    rw [turn_handled hne, turn_handled hne, hp₁, hp₂]
    exact handled_unseen (hv.handleKey (.inl rfl) nofun (.inr hc)) hv (.inl rfl) (.same _) fun _ =>
      rfl
  | typed ht₁ ht₂ hr =>
    have hne : ∀ k ∈ loopKeys, typable k = false := by decide
    rw [turn_handled fun k hk => ne_of_typable ht₁ (hne k hk),
      turn_handled fun k hk => ne_of_typable ht₂ (hne k hk), hp₁, hp₂]
    exact handled_unseen (hv.handleKey (.inr ⟨ht₁, ht₂⟩) nofun (.inr hc)) hv (.inr ⟨ht₁, ht₂⟩) hr
      fun he => absurd he (ne_of_typable ht₁ rfl)
  | key hdone henter hr =>
    have hnil : t₂.line = [] ↔ t₁.line = [] := by
      rw [← length_eq_zero_iff, ← length_eq_zero_iff, hv.lines.1]
    have hempty : t₂.line.isEmpty = t₁.line.isEmpty := by
      rw [Bool.eq_iff_iff, List.isEmpty_iff, List.isEmpty_iff, hnil]
    rw [hp₁] at heof
    simp only [turn, hp₁, hp₂, hnil, hempty, if_neg hdone]
    split
    · rename_i hd
      exact finish_unseen hv hd.2.2 (heof hd)
    split
    · rename_i hs
      obtain ⟨rfl, rfl⟩ := hs
      exact .keys (hv.setPaste true) hr
    split
    · rename_i he
      obtain ⟨rfl, rfl⟩ := he
      exact .keys (hv.setPaste false) hr
    · rw [pasteAfter_eq ‹_› ‹_›] at hr
      exact handled_unseen (hv.handleKey (.inl rfl) nofun (.inr hc)) hv (.inl rfl) hr
        fun h => absurd h henter

theorem other_unseen (hv : Veiled p t₁ t₂)
    (hpc : ∀ t u, Veiled p t u → Unseen ⟨t, pc₁, ls, ps₁⟩ ⟨u, pc₂, ls, ps₂⟩)
    (hg : ∀ width, a = .setSize width →
      t₁.line = [] ∨ (if width = 0 then 1 else width) = t₁.termWidth)
    (h₁ : other ⟨t₁, pc₁, ls, ps₁⟩ a = some s₁) (h₂ : other ⟨t₂, pc₂, ls, ps₂⟩ a = some s₂) :
    Unseen s₁ s₂ := by
  cases a with
  | write buf =>
    cases h₁
    cases h₂
    exact goOn_unseen (rel_map (hv.write buf) fun _ _ h => h) hv hpc
  | setSize width =>
    cases h₁
    cases h₂
    exact goOn_unseen (rel_map (hv.setSize width (hg width rfl)) fun _ _ h => h) hv hpc
  | setPrompt prompt =>
    cases h₁
    cases h₂
    exact hpc _ _ (hv.setPrompt prompt)
  | _ => cases h₁

section

variable {x₁ x₂ : LineSession} (hsame : SameInput (x₁, x₂) a₁ a₂) (hg : KeepsSecret (x₁, x₂) a₁)
  (h₁ : x₁.step a₁ = some s₁) (h₂ : x₂.step a₂ = some s₂)

include hsame hg h₁ h₂

theorem unseen_step_reading (hv : Veiled p t₁ t₂)
    (hx₁ : x₁ = ⟨t₁, .reading (.readPassword old) pasted, ls, ps₁⟩)
    (hx₂ : x₂ = ⟨t₂, .reading (.readPassword old) pasted, ls, ps₂⟩) : Unseen s₁ s₂ := by
  subst hx₁ hx₂
  have hpc : ∀ t u, Veiled p t u → Unseen ⟨t, .reading (.readPassword old) pasted, ls, ps₁⟩
      ⟨u, .reading (.readPassword old) pasted, ls, ps₂⟩ := fun _ _ h => .reading h
  cases a₁ with
  | read b₁ =>
    cases a₂ with
    | read b₂ =>
      have hr : Alike t₁.pasteActive (t₁.remainder ++ b₁) (t₂.remainder ++ b₂) := hsame
      simp only [step] at h₁ h₂
      split at h₁
      · split at h₂
        · cases h₁
          cases h₂
          rw [hv.paste.1] at hr
          exact .keys (hv.setRemainder _ _) hr
        · cases h₂
      · cases h₁
    | _ => cases hsame
  | readError err =>
    cases (show _ = a₂ from hsame)
    cases h₁
    cases h₂
    exact finish_unseen hv hg.1 hg.2
  | setSize _ | write _ | setPrompt _ =>
    cases (show _ = a₂ from hsame)
    simp only [step] at h₁ h₂
    exact other_unseen hv hpc (fun _ hw => by cases hw <;> exact hg) h₁ h₂
  | _ => cases h₁

theorem unseen_step_completing (hv : Veiled p t₁ t₂) (hk : SameKey k₁ k₂) (hr : Alike p r₁ r₂)
    (hx₁ : x₁ = ⟨t₁, .completing (.readPassword old) pasted k₁ r₁, ls, ps₁⟩)
    (hx₂ : x₂ = ⟨t₂, .completing (.readPassword old) pasted k₂ r₂, ls, ps₂⟩) :
    Unseen s₁ s₂ := by
  subst hx₁ hx₂
  have hpc : ∀ t u, Veiled p t u →
      Unseen ⟨t, .completing (.readPassword old) pasted k₁ r₁, ls, ps₁⟩
        ⟨u, .completing (.readPassword old) pasted k₂ r₂, ls, ps₂⟩ :=
    fun _ _ h => .completing h hk hr
  cases a₁ with
  | complete answer₁ =>
    cases a₂ with
    | complete answer₂ =>
      cases h₁
      cases h₂
      exact goOn_unseen (hv.completed hk nofun hsame nofun) hv fun t u h => .keys h hr
    | _ => cases hsame
  | setSize _ | write _ | setPrompt _ =>
    cases (show _ = a₂ from hsame)
    simp only [step] at h₁ h₂
    exact other_unseen hv hpc (fun _ hw => by cases hw <;> exact hg) h₁ h₂
  | _ => cases h₁

end

theorem unseen_step (h : Unseen s₁ s₂) (hsame : SameButTyped (s₁, s₂) (a₁, a₂))
    (hg : Discreet (s₁, s₂) (a₁, a₂)) (h₁ : s₁.step a₁ = some s₁') (h₂ : s₂.step a₂ = some s₂') :
    Unseen s₁' s₂' := by
  cases h with
  | outside _ ps hs =>
    have ha : a₁ = a₂ := by
      unfold SameButTyped at hsame
      rwa [if_neg (by rw [hs]; decide)] at hsame
    cases ha
    exact unseen_step_outside hs h₁ h₂
  | @keys p t₁ t₂ r₁ r₂ old pasted ls ps₁ ps₂ hv hr =>
    cases a₁ with
    | key =>
      have ha : LineAct.key = a₂ := hsame
      cases ha
      cases h₁
      cases h₂
      have hn : NextKeys p (bytesToKey r₁ t₁.pasteActive) (bytesToKey r₂ t₂.pasteActive) := by
        rw [hv.paste.1, hv.paste.2]
        exact hr.next
      exact turn_unseen hv hn (hg rfl).1 (hg rfl).2
    | _ => cases h₁
  | reading hv => exact unseen_step_reading hsame (hg rfl) h₁ h₂ hv rfl rfl
  | completing hv hk hr => exact unseen_step_completing hsame (hg rfl) h₁ h₂ hv hk hr rfl rfl
  | panicked hv => cases a₁ <;> cases h₁

/-- Two sessions that differ only in what is typed while a password is read write the same bytes and
return the same lines, unless a step gives the password away. -/
theorem readPassword_unseen (t : Terminal) (as : List (LineAct × LineAct))
    (h₁ : exec step (start t) (as.map fst) = some s₁)
    (h₂ : exec step (start t) (as.map snd) = some s₂)
    (hsame : Along (paired step) SameButTyped (start t, start t) as)
    (hg : Along (paired step) Discreet (start t, start t) as) :
    s₁.term.c.written = s₂.term.c.written ∧ s₁.lines = s₂.lines := by
  have hrun : exec (paired step) (start t, start t) as = some (s₁, s₂) :=
    exec_paired h₁ h₂
  have hstep : ∀ s a s', Unseen s.1 s.2 → SameButTyped s a ∧ Discreet s a →
      paired step s a = some s' → Unseen s'.1 s'.2 := by
    intro s a s' h hsa hs
    obtain ⟨hs₁, hs₂⟩ := paired_eq_some.mp hs
    exact unseen_step h hsa.1 hsa.2 hs₁ hs₂
  have hinv := run_invariant (I := fun s => Unseen s.1 s.2) hstep
    (.outside (start t) [] rfl) (along_and hsame hg) hrun
  exact hinv.observed

variable (s : LineSession × LineSession)

/-- The same is done to both sessions, but for one character of what a secret read gets. -/
def Copied : LineAct × LineAct → Prop
  | (.read b₁, .read b₂) =>
    let k₁ := bytesToKey (s.1.term.remainder ++ b₁) s.1.term.pasteActive
    let k₂ := bytesToKey (s.2.term.remainder ++ b₂) s.1.term.pasteActive
    b₁ = b₂ ∧ Consumed s ∨
      s.1.pc.secret = true ∧ typable k₁.1 = true ∧ typable k₂.1 = true ∧ k₁.2 = k₂.2
  | (.complete _, _) => False
  | (a₁, a₂) => a₁ = a₂

theorem Copied.same : (a : LineAct × LineAct) → Copied s a → SameButTyped s a := by
  rintro ⟨a₁, a₂⟩ h
  unfold SameButTyped
  cases a₁ with
  | read b₁ =>
    cases a₂ with
    | read b₂ =>
      obtain ⟨rfl, hc⟩ | ⟨hs, h₁, h₂, hr⟩ := h
      · split
        · change Alike _ (s.1.term.remainder ++ b₁) _
          rw [show s.1.term.remainder = _ from hc]
          exact .same _
        · rfl
      · rw [if_pos hs]
        refine .typed (eta _).symm (eta _).symm h₁ h₂ ?_
        rw [hr]
        exact .same _
    | _ => cases h
  | complete => exact h.elim
  | _ => split <;> exact h

instance (t : Terminal) (key : Rune) : Decidable (t.Careful key) :=
  inferInstanceAs (Decidable (_ ∨ _ ∨ _ ∧ (_ → _)))

instance : Decidable (Consumed s) :=
  inferInstanceAs (Decidable (_ = _))

instance (a : LineAct × LineAct) : Decidable (Copied s a) := by
  unfold Copied
  split <;> infer_instance

instance : (a : LineAct) → Decidable (KeepsSecret s a)
  | .key => inferInstanceAs (Decidable (_ ∧ (_ → _)))
  | .readError _ => inferInstanceAs (Decidable (_ ∧ _))
  | .setSize _ => inferInstanceAs (Decidable (_ ∨ _))
  | .readLine | .readPassword _ | .read _ | .complete _ | .write _ | .setPrompt _ => isTrue trivial

instance (a : LineAct × LineAct) : Decidable (Discreet s a) :=
  inferInstanceAs (Decidable (_ → _))

def fresh : Terminal := .newTerminal ⟨[], []⟩ [62] false

def begun (b₁ b₂ : UInt8) : List (LineAct × LineAct) :=
  [(.readPassword [63], .readPassword [63]), (.key, .key), (.read [b₁], .read [b₂]), (.key, .key),
    (.key, .key)]

def discreetRun : List (LineAct × LineAct) :=
  begun 97 98 ++
    [.write [104, 105, 10], .read [13], .key, .readLine, .key, .read [120, 13], .key, .key].map
      fun a => (a, a)

def resizedRun : List (LineAct × LineAct) := begun 97 98 ++ [(.setSize 40, .setSize 40)]

def recalledRun : List (LineAct × LineAct) :=
  ([.readLine, .key, .read [120, 13], .key, .key].map fun a => (a, a)) ++ begun 97 98 ++
    [.read [27, 91, 65, 13], .key, .key, .readLine, .key, .read [27, 91, 66, 13], .key, .key].map
      fun a => (a, a)

def lastOf (as : List LineAct) : LineSession := (exec step (start fresh) as).getD (start fresh)

theorem readPassword_unseen_discreetRun :
    Along (paired step) SameButTyped (start fresh, start fresh) discreetRun ∧
      Along (paired step) Discreet (start fresh, start fresh) discreetRun ∧
      (lastOf (discreetRun.map fst)).passwords ≠
        (lastOf (discreetRun.map snd)).passwords ∧
      (lastOf (discreetRun.map fst)).term.c.written =
        (lastOf (discreetRun.map snd)).term.c.written ∧
      (lastOf (discreetRun.map fst)).lines = (lastOf (discreetRun.map snd)).lines := by
  have hsame : Along (paired step) SameButTyped (start fresh, start fresh) discreetRun :=
    along_mono Copied.same (by decide +kernel)
  have hg : Along (paired step) Discreet (start fresh, start fresh) discreetRun := by
    decide +kernel
  exact ⟨hsame, hg, by decide +kernel,
    readPassword_unseen fresh discreetRun (by decide +kernel) (by decide +kernel) hsame hg⟩

/-- A resize writes the password, and a password that was put aside comes back as a line. -/
theorem readPassword_seen :
    (∃ as s₁ s₂, exec step (start fresh) (as.map fst) = some s₁ ∧
      exec step (start fresh) (as.map snd) = some s₂ ∧
      Along (paired step) SameButTyped (start fresh, start fresh) as ∧
      s₁.term.c.written ≠ s₂.term.c.written) ∧
    ∃ as s₁ s₂, exec step (start fresh) (as.map fst) = some s₁ ∧
      exec step (start fresh) (as.map snd) = some s₂ ∧
      Along (paired step) SameButTyped (start fresh, start fresh) as ∧ s₁.lines ≠ s₂.lines := by
  constructor
  · exact ⟨resizedRun, lastOf (resizedRun.map fst), lastOf (resizedRun.map snd),
      by decide +kernel, by decide +kernel,
      along_mono Copied.same (by decide +kernel), by decide +kernel⟩
  · exact ⟨recalledRun, lastOf (recalledRun.map fst), lastOf (recalledRun.map snd),
      by decide +kernel, by decide +kernel,
      along_mono Copied.same (by decide +kernel), by decide +kernel⟩

end LineSession

end XCryptoSsh
