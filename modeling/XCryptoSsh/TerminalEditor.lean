import XCryptoSsh.Terminal

namespace XCryptoSsh
open List
set_option autoImplicit true

open Go (Bytes)
open Utf8 (Rune runeError)

namespace StRingBuffer

def of : List Bytes → StRingBuffer
  | [] => .empty
  | a :: as => (of as).add a

structure Lies (s : StRingBuffer) (as : List Bytes) : Prop where
  length : s.entries.length = defaultNumEntries
  max : s.max = defaultNumEntries
  head : s.head = as.length % defaultNumEntries
  size : s.size = min as.length defaultNumEntries
  entry : ∀ i, i < s.size → s.entries[(as.length - i) % defaultNumEntries]? = as[i]?

theorem Lies.add {s : StRingBuffer} (h : Lies s as) (a : Bytes) : Lies (s.add a) (a :: as) := by
  have hne : s.entries ≠ [] := by
    intro he
    have hlen := h.length
    rw [he] at hlen
    cases hlen
  have hadd : s.add a = { s with
      head := (s.head + 1) % s.max
      entries := s.entries.set ((s.head + 1) % s.max) a
      size := if s.size < s.max then s.size + 1 else s.size } := by
    rw [StRingBuffer.add, if_neg hne]
  have hhead : (s.head + 1) % s.max = (as.length + 1) % defaultNumEntries := by
    rw [h.head, h.max, Nat.mod_add_mod]
  rw [hadd, hhead]
  constructor
  · rw [length_set, h.length]
  · exact h.max
  · rfl
  · have hsize := h.size
    have hmax := h.max
    dsimp only
    rw [length_cons]
    split <;> omega
  · intro i hi
    dsimp only at hi ⊢
    rw [length_cons]
    have hsize := h.size
    have hmax := h.max
    have hd : defaultNumEntries = 100 := rfl
    cases i with
    | zero =>
      rw [Nat.sub_zero, getElem?_set_self (by rw [h.length]; exact Nat.mod_lt _ (by decide))]
      rfl
    | succ i =>
      have hlt : i + 1 < defaultNumEntries := by split at hi <;> omega
      have hi' : i < s.size := by split at hi <;> omega
      have hne : (as.length + 1) % defaultNumEntries ≠
          (as.length + 1 - (i + 1)) % defaultNumEntries := by
        rw [hd] at hsize hlt ⊢
        split at hi <;> omega
      rw [getElem?_set_ne hne, Nat.add_sub_add_right, h.entry i hi']
      rfl

theorem lies_of_cons (a : Bytes) (as : List Bytes) : Lies (of (a :: as)) (a :: as) := by
  induction as generalizing a with
  | nil =>
    refine ⟨rfl, rfl, rfl, rfl, ?_⟩
    intro i hi
    cases i with
    | zero => rfl
    | succ i => exact absurd hi (by change ¬ i + 1 < 1; omega)
  | cons b bs ih => exact (ih b).add a

theorem size_of (as : List Bytes) : (of as).size = min as.length defaultNumEntries := by
  cases as with
  | nil => rfl
  | cons a as => exact (lies_of_cons a as).size

theorem nthPreviousEntry_of (as : List Bytes) (n : Nat) :
    (of as).nthPreviousEntry n = some (as.take defaultNumEntries)[n]? := by
  cases as with
  | nil =>
    unfold nthPreviousEntry
    rw [if_pos (show (n : Int) ≥ (of []).size from Int.natCast_nonneg n)]
    rfl
  | cons a as =>
    have h := lies_of_cons a as
    have hsize := h.size
    have hd : defaultNumEntries = 100 := rfl
    unfold nthPreviousEntry
    by_cases hn : n < (of (a :: as)).size
    · have hindex : (if ((of (a :: as)).head : Int) - n < 0
          then ((of (a :: as)).head : Int) - n + (of (a :: as)).max
          else (of (a :: as)).head - n) = (((a :: as).length - n) % defaultNumEntries : Nat) := by
        rw [h.head, h.max]
        rw [hd] at hsize ⊢
        split <;> omega
      have hget := h.entry n hn
      have hlt : n < (a :: as).length := by omega
      rw [if_neg (by omega), hindex]
      dsimp only
      rw [if_neg (by omega), Int.toNat_natCast, hget, getElem?_take_of_lt (by omega),
        getElem?_eq_getElem hlt]
      rfl
    · rw [if_pos (by omega), getElem?_eq_none]
      rw [length_take]
      omega

theorem foldl_add_of (as bs : List Bytes) : as.foldl add (of bs) = of (as.reverse ++ bs) := by
  induction as generalizing bs with
  | nil => rfl
  | cons a as ih =>
    rw [foldl_cons, reverse_cons, append_assoc]
    exact ih (a :: bs)

theorem nthPreviousEntry_foldl_add (as : List Bytes) (n : Nat) :
    (as.foldl add empty).nthPreviousEntry n =
      some (if h : n < as.length ∧ n < defaultNumEntries then some as[as.length - 1 - n] else
        none) := by
  have hadds := foldl_add_of as []
  rw [append_nil] at hadds
  rw [show empty = of [] from rfl, hadds, nthPreviousEntry_of]
  split
  · rename_i h
    rw [getElem?_take_of_lt h.2, getElem?_reverse h.1, getElem?_eq_getElem]
  · rename_i h
    rw [getElem?_eq_none]
    rw [length_take, length_reverse]
    omega

end StRingBuffer

structure EditLine where
  text : List Rune
  pos : Nat
  pos_le : pos ≤ text.length
  deriving DecidableEq, Repr

namespace EditLine

def ofText (text : List Rune) : EditLine := ⟨text, text.length, Nat.le_refl _⟩

def goTo (e : EditLine) (i : Nat) : EditLine :=
  ⟨e.text, min i e.text.length, Nat.min_le_right _ _⟩

def insert (e : EditLine) (key : Rune) : EditLine where
  text := e.text.take e.pos ++ key :: e.text.drop e.pos
  pos := e.pos + 1
  pos_le := by
    have h := e.pos_le
    simp only [length_append, length_take, length_cons, length_drop]
    omega

def erase (e : EditLine) (n : Nat) : EditLine where
  text := e.text.take (e.pos - n) ++ e.text.drop e.pos
  pos := e.pos - n
  pos_le := by
    have h := e.pos_le
    simp only [length_append, length_take, length_drop]
    omega

def cut (e : EditLine) : EditLine where
  text := e.text.take e.pos
  pos := e.pos
  pos_le := by
    have h := e.pos_le
    rw [length_take]
    omega

def wordStart (e : EditLine) : Nat :=
  if e.pos ≤ 1 then 0
  else ((Terminal.skipSpaces e.text (e.pos - 1)).bind (Terminal.skipWord e.text)).getD 0

def wordEnd (e : EditLine) : Nat :=
  let tail := e.text.drop e.pos
  let word := tail.takeWhile (· ≠ 32)
  e.pos + (word.length + ((tail.drop word.length).takeWhile (· = 32)).length)

end EditLine

/-- `history` has the lines that were entered, the newest first, and `shown` the place of the one
shown instead of the typed line, which is `pending`. -/
structure Editor where
  edit : EditLine
  echo : Bool
  pasteActive : Bool
  history : List Bytes
  shown : Option Nat
  pending : Bytes
  shown_lt : ∀ i ∈ shown, i < (history.take StRingBuffer.defaultNumEntries).length

namespace Editor

def recent (e : Editor) : List Bytes := e.history.take StRingBuffer.defaultNumEntries

def empty : Editor where
  edit := .ofText []
  echo := true
  pasteActive := false
  history := []
  shown := none
  pending := []
  shown_lt := nofun

def insertKey (e : Editor) (key : Rune) : Editor :=
  if isPrintable key = true ∧ e.edit.text.length ≠ maxLineLength then
    { e with edit := e.edit.insert key }
  else e

def up (e : Editor) : Editor :=
  let i := e.shown.elim 0 (· + 1)
  if h : i < e.recent.length then
    { e with
      edit := .ofText (Utf8.decode e.recent[i])
      pending := if e.shown = none then Utf8.encode e.edit.text else e.pending
      shown := some i
      shown_lt := fun j hj => by
        cases hj
        exact h }
  else e

def down (e : Editor) : Editor :=
  match h : e.shown with
  | none => e
  | some 0 =>
    { e with edit := .ofText (Utf8.decode e.pending), shown := none, shown_lt := nofun }
  | some (i + 1) =>
    have hi : i < e.recent.length := Nat.lt_of_succ_lt (e.shown_lt (i + 1) h)
    { e with
      edit := .ofText (Utf8.decode e.recent[i])
      shown := some i
      shown_lt := fun j hj => by
        cases hj
        exact hi }

def handleCase (e : Editor) (key : Rune) : Key → Editor × Option Bytes
  | .backspace => ({ e with edit := e.edit.erase 1 }, none)
  | .altLeft => ({ e with edit := e.edit.goTo e.edit.wordStart }, none)
  | .altRight => ({ e with edit := e.edit.goTo e.edit.wordEnd }, none)
  | .left => ({ e with edit := e.edit.goTo (e.edit.pos - 1) }, none)
  | .right => ({ e with edit := e.edit.goTo (e.edit.pos + 1) }, none)
  | .home => ({ e with edit := e.edit.goTo 0 }, none)
  | .end => ({ e with edit := e.edit.goTo e.edit.text.length }, none)
  | .up => (e.up, none)
  | .down => (e.down, none)
  | .enter => ({ e with edit := .ofText [] }, some (Utf8.encode e.edit.text))
  | .deleteWord => ({ e with edit := e.edit.erase (e.edit.pos - e.edit.wordStart) }, none)
  | .deleteLine => ({ e with edit := e.edit.cut }, none)
  | .ctrlD =>
    if e.edit.pos < e.edit.text.length then
      ({ e with edit := (e.edit.goTo (e.edit.pos + 1)).erase 1 }, none)
    else (e, none)
  | .ctrlU => ({ e with edit := e.edit.erase e.edit.pos }, none)
  | .clearScreen => (e, none)
  | .other => (e.insertKey key, none)

def handleKey (e : Editor) (key : Rune) : Editor × Option Bytes :=
  if e.pasteActive = true ∧ key ≠ keyEnter then ({ e with edit := e.edit.insert key }, none)
  else e.handleCase key (.of key)

def remember (e : Editor) (line : Bytes) : Editor :=
  if e.echo then
    { e with history := line :: e.history, shown := none, shown_lt := nofun }
  else e

end Editor

/-- What a session does not do for the display: the calls, the keys and the failure of a read. -/
inductive EditEvent where
  | begin (password : Bool)
  | key (k : Rune)
  | readError (err : Err)
  deriving DecidableEq, Repr

structure EditCall where
  password : Bool
  lineIsPasted : Bool
  deriving DecidableEq, Repr

structure EditSession where
  editor : Editor
  call : Option EditCall
  lines : List (Bytes × Option Err)
  passwords : List (Bytes × Option Err)

namespace EditSession

def start : EditSession := ⟨.empty, none, [], []⟩

def begin (s : EditSession) (password : Bool) : EditSession :=
  { s with
    editor := { s.editor with echo := s.editor.echo && !password }
    call := some ⟨password, s.editor.pasteActive⟩ }

def finish (s : EditSession) (e : Editor) (password : Bool) (line : Bytes) (err : Option Err) :
    EditSession :=
  if password then
    { s with
      editor := { e with echo := true }
      call := none
      passwords := s.passwords ++ [(line, err)] }
  else { s with editor := e, call := none, lines := s.lines ++ [(line, err)] }

def handled (s : EditSession) (c : EditCall) : Editor × Option Bytes → EditSession
  | (e, none) => { s with editor := e, call := some c }
  | (e, some line) =>
    s.finish (e.remember line) c.password line
      (if c.lineIsPasted then some errPasteIndicator else none)

def key (s : EditSession) (c : EditCall) (k : Rune) : EditSession :=
  let e := s.editor
  if e.pasteActive = false ∧ k = keyCtrlD ∧ e.edit.text = [] then
    s.finish e c.password [] (some .eof)
  else if e.pasteActive = false ∧ k = keyPasteStart then
    { s with
      editor := { e with pasteActive := true }
      call := some { c with lineIsPasted := c.lineIsPasted || e.edit.text.isEmpty } }
  else if e.pasteActive = true ∧ k = keyPasteEnd then
    { s with editor := { e with pasteActive := false } }
  else s.handled { c with lineIsPasted := e.pasteActive && c.lineIsPasted } (e.handleKey k)

def step (s : EditSession) : EditEvent → EditSession
  | .begin password => s.begin password
  | .key k => s.call.elim s (s.key · k)
  | .readError err => s.call.elim s fun c => s.finish s.editor c.password [] (some err)

end EditSession

end XCryptoSsh
