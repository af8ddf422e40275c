import XCryptoSsh.TerminalText

namespace XCryptoSsh
open List Option Terminal
set_option autoImplicit true

open Go (Bytes)
open Utf8 (Rune runeError)

def typable (key : Rune) : Bool := isPrintable key && key != keyBackspace && key != runeError

def SameKey (k₁ k₂ : Rune) : Prop := k₁ = k₂ ∨ typable k₁ = true ∧ typable k₂ = true

def AlikeAnswer : Option (Bytes × Int) → Option (Bytes × Int) → Prop
  | none, none => True
  | some (l₁, p₁), some (l₂, p₂) =>
    (Utf8.decode l₁).length = (Utf8.decode l₂).length ∧
      (sliceTo l₁ p₁).map Utf8.runeCount = (sliceTo l₂ p₂).map Utf8.runeCount
  | _, _ => False

theorem AlikeAnswer.refl (a : Option (Bytes × Int)) : AlikeAnswer a a := by
  cases a with
  | none => trivial
  | some a => exact ⟨rfl, rfl⟩

theorem ne_of_typable (h : typable k = true) (h' : typable k' = false) : k ≠ k' := by
  rintro rfl
  cases h.symm.trans h'

theorem keyOf_typable (h : typable k = true) : Key.of k = .other := by
  by_contra hk
  have hr := Key.rune_of rfl hk
  cases hkey : Key.of k <;> rw [hkey] at hr <;> cases hr <;> exact absurd h (by decide)

theorem SameKey.isPrintable (h : SameKey k₁ k₂) : isPrintable k₁ = isPrintable k₂ := by
  cases h with
  | inl h => rw [h]
  | inr h =>
    simp only [typable, Bool.and_eq_true] at h
    rw [h.1.1.1, h.2.1.1]

theorem SameKey.keyOf (h : SameKey k₁ k₂) : Key.of k₂ = Key.of k₁ := by
  cases h with
  | inl h => rw [h]
  | inr h => rw [keyOf_typable h.1, keyOf_typable h.2]

theorem SameKey.enter (h : SameKey k₁ k₂) : k₁ = keyEnter ↔ k₂ = keyEnter := by
  cases h with
  | inl h => rw [h]
  | inr h => exact iff_of_false (ne_of_typable h.1 rfl) (ne_of_typable h.2 rfl)

theorem keyOf_eq_enter (h : Key.of k = .enter) : k = keyEnter :=
  (Option.some.inj (Key.rune_of h (by decide))).symm

def Key.countsWords : Key → Bool
  | .altLeft | .altRight | .deleteWord => true
  | _ => false

/-- A key that gives nothing away of the line: it looks for no space in it, and it does not put it
aside as `Up` does. -/
def Terminal.Careful (t : Terminal) (key : Rune) : Prop :=
  t.pasteActive = true ∨ t.line = [] ∨
    (Key.of key).countsWords = false ∧ (Key.of key = .up → t.historyIndex ≠ -1)

/-- Two lines of one length, which are equal where they may be seen. -/
def Lines (v : Option Bool) (l₁ l₂ : List α) : Prop :=
  l₁.length = l₂.length ∧ (v = none → l₁ = l₂)

namespace Lines

variable {v : Option Bool} {l₁ l₂ r₁ r₂ : List α}

theorem same : Lines v l₁ l₁ := ⟨rfl, fun _ => rfl⟩

section

variable (h : Lines v l₁ l₂)

include h

theorem take (n : Nat) : Lines v (l₁.take n) (l₂.take n) :=
  ⟨by rw [length_take, length_take, h.1], fun hv => by rw [h.2 hv]⟩

theorem append (hr : Lines v r₁ r₂) : Lines v (l₁ ++ r₁) (l₂ ++ r₂) :=
  ⟨by rw [length_append, length_append, h.1, hr.1], fun hv => by rw [h.2 hv, hr.2 hv]⟩

theorem cons (hk : v = none → a = b) : Lines v (a :: l₁) (b :: l₂) :=
  ⟨congrArg (· + 1) h.1, fun hv => by rw [h.2 hv, hk hv]⟩

theorem sliceFrom (i : Int) : Option.Rel (Lines v) (sliceFrom l₁ i) (sliceFrom l₂ i) := by
  simp only [XCryptoSsh.sliceFrom, h.1]
  split
  · exact .some ⟨by rw [length_drop, length_drop, h.1], fun hv => by rw [h.2 hv]⟩
  · exact .none

theorem sliceTo (i : Int) : Option.Rel (Lines v) (sliceTo l₁ i) (sliceTo l₂ i) := by
  simp only [XCryptoSsh.sliceTo, h.1]
  split
  · exact .some (h.take _)
  · exact .none

end

end Lines

/-- Two terminals that differ in the output alone or, where nothing is echoed, in the runes of the
line alone. -/
inductive Paired (v : Option Bool) : Terminal → Terminal → Prop where
  | intro (t : Terminal) (line : List Rune) (c : Conn) (outBuf remainder : Bytes)
      (hl : Lines v t.line line) (hv : ∀ p, v = some p →
        t.echo = false ∧ t.pasteActive = p ∧ c = t.c ∧ outBuf = t.outBuf) :
      Paired v t { t with line, c, outBuf, remainder }

inductive SameOutcome (v : Option Bool) (k : Rune) :
    Terminal × Terminal.KeyResult → Terminal × Terminal.KeyResult → Prop where
  | more : Paired v t u → SameOutcome v k (t, .more) (u, .more)
  | complete : Paired v t u → SameOutcome v k (t, .complete) (u, .complete)
  | line : Paired v t u → t.line = [] → k = keyEnter → (v = none → l₁ = l₂) →
      SameOutcome v k (t, .line l₁) (u, .line l₂)

namespace Paired

variable {v : Option Bool} {t u : Terminal}

section

variable (h : Paired v t u)

include h

theorem lines : Lines v t.line u.line := by
  cases h with
  | intro line c outBuf remainder hl hv => exact hl

theorem pos : u.pos = t.pos := by cases h; rfl

theorem echo : u.echo = t.echo := by cases h; rfl

theorem pasteActive : u.pasteActive = t.pasteActive := by cases h; rfl

theorem todo (n : Nat) : u.todo n = t.todo n := by cases h; rfl

theorem seen (he : t.echo = true) : v = none := by
  cases h with
  | intro line c outBuf remainder hl hv =>
    cases v with
    | none => rfl
    | some p => cases he.symm.trans (hv p rfl).1

theorem line_eq (hl : v = none ∨ t.line = []) : u.line = t.line := by
  obtain hv | hl := hl
  · exact (h.lines.2 hv).symm
  · rw [hl]
    exact length_eq_zero_iff.mp (h.lines.1.symm.trans (congrArg length hl))

theorem edit (hl : Lines v l₁ l₂) (i : Int) :
    Paired v { t with line := l₁, pos := i } { u with line := l₂, pos := i } := by
  cases h with
  | intro _ c outBuf remainder _ hv =>
    exact .intro { t with line := l₁, pos := i } l₂ c outBuf remainder hl hv

theorem setPos (i : Int) : Paired v { t with pos := i } { u with pos := i } :=
  h.edit h.lines i

theorem setCursor (x y : Int) :
    Paired v { t with cursorX := x, cursorY := y } { u with cursorX := x, cursorY := y } := by
  cases h with
  | intro line c outBuf remainder hl hv => exact .intro _ line c outBuf remainder hl hv

theorem setRemainder (r₁ r₂ : Bytes) :
    Paired v { t with remainder := r₁ } { u with remainder := r₂ } := by
  cases h with
  | intro line c outBuf remainder hl hv =>
    exact .intro { t with remainder := r₁ } line c outBuf r₂ hl hv

theorem queue (data : List Rune) : Paired v (t.queue data) (u.queue data) := by
  cases h with
  | intro line c outBuf remainder hl hv =>
    refine .intro (t.queue data) line c _ remainder hl fun p hp => ?_
    obtain ⟨he, hpaste, hc, rfl⟩ := hv p hp
    exact ⟨he, hpaste, hc, rfl⟩

theorem flush : Paired v t.flush.2 u.flush.2 := by
  cases h with
  | intro line c outBuf remainder hl hv =>
    refine .intro t.flush.2 line _ _ remainder hl fun p hp => ?_
    obtain ⟨he, hpaste, rfl, rfl⟩ := hv p hp
    exact ⟨he, hpaste, rfl, rfl⟩

theorem advanceCursor (places : Int) :
    Option.Rel (Paired v) (t.advanceCursor places) (u.advanceCursor places) := by
  cases h with
  | intro line c outBuf remainder hl hv =>
    simp only [advanceCursor]
    split
    · exact .none
    split
    · refine .some (.intro _ line c _ remainder hl fun p hp => ?_)
      obtain ⟨he, hpaste, hc, rfl⟩ := hv p hp
      exact ⟨he, hpaste, hc, rfl⟩
    · exact .some (.intro _ line c outBuf remainder hl hv)

theorem move (up down left right : Int) :
    Option.Rel (Paired v) (t.move up down left right) (u.move up down left right) := by
  unfold Terminal.move
  split
  · exact .some (h.queue _)
  · exact .none

theorem moveCursorToPos (i : Int) :
    Option.Rel (Paired v) (t.moveCursorToPos i) (u.moveCursorToPos i) := by
  cases h with
  | intro line c outBuf remainder hl hv =>
    simp only [moveCursorToPos]
    split
    · exact .some (.intro t line c outBuf remainder hl hv)
    split
    · exact .none
    · apply move
      exact .intro _ line c outBuf remainder hl hv

theorem writeLine (text : List Rune) :
    Option.Rel (Paired v) (t.writeLine text) (u.writeLine text) :=
  rel_writeLine (fun _ _ h => h.todo) (fun _ _ data n h => (h.queue data).advanceCursor n) h text

theorem setLine (hl : Lines v l₁ l₂) (i : Int) :
    Option.Rel (Paired v) (t.setLine l₁ i) (u.setLine l₂ i) := by
  unfold Terminal.setLine
  rw [h.echo, ← h.lines.1]
  split
  · rename_i he
    cases hl.2 (h.seen he)
    apply rel_bind (h.moveCursorToPos 0)
    intro a b _ hab
    apply rel_bind (hab.writeLine l₁)
    intro a b _ hab
    apply rel_bind (rel_repeatTimes (fun _ _ h => h.writeLine space) hab _)
    intro a b _ hab
    apply rel_bind (hab.moveCursorToPos i)
    intro a b _ hab
    exact .some (hab.edit hl i)
  · exact .some (h.edit hl i)

theorem eraseNPreviousChars (n : Int) :
    Option.Rel (Paired v) (t.eraseNPreviousChars n) (u.eraseNPreviousChars n) := by
  unfold Terminal.eraseNPreviousChars
  split
  · exact .some h
  rw [h.pos]
  generalize (if t.pos < n then t.pos else n) = m
  apply rel_bind ((h.setPos (t.pos - m)).moveCursorToPos (t.pos - m))
  intro a b _ hab
  rw [hab.pos, hab.echo]
  apply rel_bind (hab.lines.sliceFrom a.pos)
  intro _ _ _ _
  apply rel_bind (hab.lines.sliceFrom (m + a.pos))
  intro tail₁ tail₂ _ htail
  have hedit := hab.edit ((hab.lines.take a.pos.toNat).append htail) a.pos
  rw [hab.echo] at hedit
  dsimp only
  split
  · rename_i he
    cases htail.2 (hab.seen he)
    apply rel_bind (hedit.writeLine tail₁)
    intro a b _ hab
    apply rel_bind ((hab.queue _).advanceCursor m)
    intro a b _ hab
    rw [hab.pos]
    exact hab.moveCursorToPos _
  · exact .some hedit

theorem addKeyToLine (hk : v = none → k₁ = k₂) :
    Option.Rel (Paired v) (t.addKeyToLine k₁) (u.addKeyToLine k₂) := by
  have hnext : ∀ {a b}, Paired v a b →
      Option.Rel (Paired v) ({ a with pos := a.pos + 1 }.moveCursorToPos (a.pos + 1))
        ({ b with pos := b.pos + 1 }.moveCursorToPos (b.pos + 1)) := by
    intro a b hab
    rw [hab.pos]
    exact (hab.setPos _).moveCursorToPos _
  unfold Terminal.addKeyToLine
  rw [h.pos, h.echo]
  apply rel_bind (h.lines.sliceFrom t.pos)
  intro tail₁ tail₂ _ htail
  have hedit := h.edit ((h.lines.take t.pos.toNat).append (htail.cons hk)) t.pos
  rw [h.echo] at hedit
  dsimp only
  split
  · rename_i he
    cases hk (h.seen he)
    cases htail.2 (h.seen he)
    apply rel_bind (hedit.writeLine (k₁ :: tail₁))
    intro a b _ hab
    exact hnext hab
  · exact hnext hedit

theorem insertKey (hs : SameKey k₁ k₂) (hk : v = none → k₁ = k₂) :
    Option.Rel (Paired v) (t.insertKey k₁) (u.insertKey k₂) := by
  simp only [Terminal.insertKey, hs.isPrintable, h.lines.1]
  split
  · exact .some h
  split
  · exact .some h
  · exact h.addKeyToLine hk

theorem showEntry (entry : Bytes) (i : Int) :
    Option.Rel (Paired v) (t.showEntry entry i) (u.showEntry entry i) := by
  cases h with
  | intro line c outBuf remainder hl hv =>
    exact setLine (.intro { t with historyIndex := i } line c outBuf remainder hl hv) .same _

theorem handleUp (hg : (v = none ∨ t.line = []) ∨ t.historyIndex ≠ -1) :
    Option.Rel (Paired v) t.handleUp u.handleUp := by
  have heq := h.line_eq
  cases h with
  | intro line c outBuf remainder hl hv =>
    simp only [handleUp, bind_eq_bind]
    cases t.history.nthPreviousEntry (t.historyIndex + 1) with
    | none => exact .none
    | some entry =>
      cases entry with
      | none => exact .some (.intro t line c outBuf remainder hl hv)
      | some entry =>
        by_cases hi : t.historyIndex = -1
        · -- what is put aside is seen anyway, or is an empty line
          cases heq (hg.resolve_right (not_not_intro hi))
          simp only [bind_some, hi, ↓reduceIte]
          refine showEntry ?_ entry _
          exact .intro _ _ c outBuf remainder hl hv
        · simp only [bind_some, hi, ↓reduceIte]
          exact showEntry (.intro t line c outBuf remainder hl hv) entry _

theorem handleDown : Option.Rel (Paired v) t.handleDown u.handleDown := by
  have hshow := h.showEntry
  have hsome := Option.Rel.some h
  cases h with
  | intro line c outBuf remainder hl hv =>
    simp only [handleDown, bind_eq_bind]
    split
    · exact hsome
    split
    · exact hshow _ _
    cases t.history.nthPreviousEntry (t.historyIndex - 1) with
    | none => exact .none
    | some entry =>
      cases entry with
      | none => exact hsome
      | some entry => exact hshow _ _

theorem handleDeleteLine : Option.Rel (Paired v) t.handleDeleteLine u.handleDeleteLine := by
  simp only [Terminal.handleDeleteLine, bind_eq_bind, h.pos, h.lines.1]
  apply rel_bind (rel_repeatTimes (fun a b hab => (hab.queue space).advanceCursor 1) h _)
  intro a b _ hab
  rw [hab.pos]
  apply rel_bind (hab.lines.sliceTo _)
  intro l₁ l₂ _ hl
  exact (hab.edit hl a.pos).moveCursorToPos _

theorem handleClearScreen : Option.Rel (Paired v) t.handleClearScreen u.handleClearScreen := by
  have hq := ((h.queue (vt100 '2' ++ ['J'.toNat] ++ vt100 'H')).queue t.prompt).setCursor 0 0
  have hadv := hq.advanceCursor (visualLength t.prompt)
  cases h with
  | intro line c outBuf remainder hl hv =>
    apply rel_bind hadv
    intro a b _ hab
    rw [hab.pos]
    exact hab.setLine hab.lines _

theorem handleEnter (hk : k = keyEnter) :
    Option.Rel (SameOutcome v k) t.handleEnter u.handleEnter := by
  unfold Terminal.handleEnter
  rw [← h.lines.1]
  apply rel_bind (h.moveCursorToPos t.line.length)
  intro a b _ hab
  have hq := hab.queue [13, 10]
  dsimp only
  generalize a.queue [13, 10] = a', b.queue [13, 10] = b' at hq ⊢
  have hline := hq.lines.2
  cases hq with
  | intro line c outBuf remainder hl hv =>
    refine .some (.line ?_ rfl hk fun hn => congrArg Utf8.encode (hline hn))
    exact .intro _ [] c outBuf remainder .same hv

end

theorem edited {x y : Option Terminal} (h : Option.Rel (Paired v) x y) :
    Option.Rel (SameOutcome v k) (edited x) (edited y) :=
  rel_map h fun _ _ hab => .more hab

theorem countToLeftWord (h : Paired v t u) (hl : v = none ∨ t.line = []) :
    u.countToLeftWord = t.countToLeftWord := by
  rw [Terminal.countToLeftWord, Terminal.countToLeftWord, h.line_eq hl, h.pos]

theorem countToRightWord (h : Paired v t u) (hl : v = none ∨ t.line = []) :
    u.countToRightWord = t.countToRightWord := by
  rw [Terminal.countToRightWord, Terminal.countToRightWord, h.line_eq hl, h.pos]

section

variable (h : Paired v t u) (hs : SameKey k₁ k₂) (hk : v = none → k₁ = k₂)

include h hs hk

theorem handleCase (key : Key)
    (he : key = .enter → k₁ = keyEnter) (hw : key.countsWords = true → v = none ∨ t.line = [])
    (hup : key = .up → (v = none ∨ t.line = []) ∨ t.historyIndex ≠ -1) :
    Option.Rel (SameOutcome v k₁) (t.handleCase k₁ key) (u.handleCase k₂ key) := by
  have hlen := h.lines.1.symm
  cases key with
  | enter => exact h.handleEnter (he rfl)
  | backspace =>
    apply edited
    rw [h.pos]
    split
    · exact .some h
    · exact h.eraseNPreviousChars 1
  | altLeft =>
    apply edited
    rw [h.countToLeftWord (hw rfl), h.pos]
    cases t.countToLeftWord with
    | none => exact .none
    | some n => exact (h.setPos (t.pos - n)).moveCursorToPos _
  | altRight =>
    apply edited
    rw [h.countToRightWord (hw rfl), h.pos]
    cases t.countToRightWord with
    | none => exact .none
    | some n => exact (h.setPos (t.pos + n)).moveCursorToPos _
  | left | home =>
    apply edited
    rw [h.pos]
    split
    · exact .some h
    · exact (h.setPos _).moveCursorToPos _
  | right | «end» =>
    apply edited
    rw [h.pos, hlen]
    split
    · exact .some h
    · exact (h.setPos _).moveCursorToPos _
  | up => exact edited (h.handleUp (hup rfl))
  | down => exact edited h.handleDown
  | deleteWord =>
    apply edited
    rw [h.countToLeftWord (hw rfl)]
    cases t.countToLeftWord with
    | none => exact .none
    | some n => exact h.eraseNPreviousChars n
  | deleteLine => exact edited h.handleDeleteLine
  | ctrlD =>
    apply edited
    rw [h.pos, hlen]
    split
    · exact (h.setPos _).eraseNPreviousChars 1
    · exact .some h
  | ctrlU =>
    apply edited
    rw [h.pos]
    exact h.eraseNPreviousChars _
  | clearScreen => exact edited h.handleClearScreen
  | other =>
    have hauto : u.autoComplete = t.autoComplete := by cases h; rfl
    rw [Terminal.handleCase, Terminal.handleCase, hauto, h.pos]
    split
    · apply rel_map (h.lines.sliceTo t.pos)
      intro _ _ _
      exact .complete h
    · exact edited (h.insertKey hs hk)

theorem handleKey (hc : v = none ∨ t.Careful k₁) :
    Option.Rel (SameOutcome v k₁) (t.handleKey k₁) (u.handleKey k₂) := by
  unfold Terminal.handleKey
  simp only [h.pasteActive, hs.keyOf, ne_eq, ← hs.enter]
  split
  · exact edited (h.addKeyToLine hk)
  rename_i hpaste
  -- in a paste only Enter comes here, which is neither `Up` nor a word key
  have hcare : Key.of k₁ ≠ .enter → (v = none ∨ t.line = []) ∨
      (Key.of k₁).countsWords = false ∧ (Key.of k₁ = .up → t.historyIndex ≠ -1) := by
    intro hne
    refine or_assoc.mpr (hc.imp_right fun hc => hc.resolve_left fun hp => ?_)
    exact hpaste ⟨hp, fun he => hne (by rw [he]; rfl)⟩
  apply h.handleCase hs hk _ keyOf_eq_enter
  · intro hw
    apply (hcare fun he => ?_).resolve_right
    · intro hn
      cases hn.1.symm.trans hw
    · rw [he] at hw
      cases hw
  · intro hup
    apply (hcare fun he => ?_).imp_right
    · intro hn
      exact hn.2 hup
    · cases he.symm.trans hup

theorem completed
    (ha : AlikeAnswer a₁ a₂) (hv : v = none → a₁ = a₂) :
    Option.Rel (Paired v) (t.completed k₁ a₁) (u.completed k₂ a₂) := by
  cases a₁ with
  | none =>
    cases a₂ with
    | none => exact h.insertKey hs hk
    | some _ => cases ha
  | some a₁ =>
    cases a₂ with
    | none => cases ha
    | some a₂ =>
      obtain ⟨hl, hp⟩ := ha
      simp only [Terminal.completed, bind_eq_bind]
      cases h₁ : sliceTo a₁.1 a₁.2 with
      | none =>
        rw [h₁, map_none, eq_comm, map_eq_none_iff] at hp
        rw [hp]
        exact .none
      | some l₁ =>
        rw [h₁, map_some, eq_comm, map_eq_some_iff] at hp
        obtain ⟨l₂, h₂, hcount⟩ := hp
        rw [h₂, bind_some, bind_some, hcount]
        exact h.setLine ⟨hl, fun hn => by rw [some.inj (hv hn)]⟩ _

end

end Paired

end XCryptoSsh
