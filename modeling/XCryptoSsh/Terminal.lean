import XCryptoSsh.Basic
import XCryptoSsh.Go
import XCryptoSsh.Utf8

namespace XCryptoSsh
open List
set_option autoImplicit true

open Go (Bytes)
open Utf8 (Rune runeError)

def keyCtrlD : Rune := 4
def keyCtrlU : Rune := 21
def keyEnter : Rune := 13
def keyEscape : Rune := 27
def keyBackspace : Rune := 127
def keyUnknown : Rune := 0xd805
def keyUp : Rune := 0xd806
def keyDown : Rune := 0xd807
def keyLeft : Rune := 0xd808
def keyRight : Rune := 0xd809
def keyAltLeft : Rune := 0xd80a
def keyAltRight : Rune := 0xd80b
def keyHome : Rune := 0xd80c
def keyEnd : Rune := 0xd80d
def keyDeleteWord : Rune := 0xd80e
def keyDeleteLine : Rune := 0xd80f
def keyClearScreen : Rune := 0xd810
def keyPasteStart : Rune := 0xd811
def keyPasteEnd : Rune := 0xd812

/-- ESC `[` 2 0 0 `~` and ESC `[` 2 0 1 `~`. -/
def pasteStart : Bytes := [27, 91, 50, 48, 48, 126]
def pasteEnd : Bytes := [27, 91, 50, 48, 49, 126]

def controlKey (b : UInt8) : Option Rune :=
  if b = 1 then some keyHome
  else if b = 5 then some keyEnd
  else if b = 8 then some keyBackspace
  else if b = 11 then some keyDeleteLine
  else if b = 12 then some keyClearScreen
  else if b = 23 then some keyDeleteWord
  else none

/-- The last byte of ESC `[` with one letter. -/
def letterKey (b : UInt8) : Option Rune :=
  if b = 65 then some keyUp
  else if b = 66 then some keyDown
  else if b = 67 then some keyRight
  else if b = 68 then some keyLeft
  else if b = 72 then some keyHome
  else if b = 70 then some keyEnd
  else none

/-- The last byte of ESC `[` 1 `;` 3 with one letter. -/
def altKey (b : UInt8) : Option Rune :=
  if b = 67 then some keyAltRight
  else if b = 68 then some keyAltLeft
  else none

def endsSequence (b : UInt8) : Bool := (97 ≤ b && b ≤ 122) || (65 ≤ b && b ≤ 90) || b = 126

/-- The loop at the end of `bytesToKey`: what follows the first byte that ends a sequence. -/
def afterSequence : Bytes → Option Bytes
  | [] => none
  | b :: bs => if endsSequence b then some bs else afterSequence bs

/-- The sequences of three and of six bytes that are known when nothing is pasted. -/
def escapeKey : Bytes → Option (Rune × Bytes)
  | 27 :: 91 :: b :: bs =>
    match letterKey b with
    | some key => some (key, bs)
    | none =>
      match b, bs with
      | 49, 59 :: 51 :: b :: bs => (altKey b).map (·, bs)
      | 50, 48 :: 48 :: 126 :: bs => some (keyPasteStart, bs)
      | _, _ => none
  | _ => none

/-- The part of `bytesToKey` for a sequence that begins with ESC. -/
def escapeSequence (b : Bytes) (pasteActive : Bool) : Rune × Bytes :=
  match if pasteActive then none else escapeKey b with
  | some r => r
  | none =>
    if pasteActive ∧ pasteEnd <+: b then (keyPasteEnd, b.drop 6)
    else match afterSequence b with
      | some rest => (keyUnknown, rest)
      | none => (runeError, b)

/-- The next key and the bytes after it; `runeError` when there is none. -/
def bytesToKey (b : Bytes) (pasteActive : Bool) : Rune × Bytes :=
  match b with
  | [] => (runeError, [])
  | b₀ :: bs =>
    match if pasteActive then none else controlKey b₀ with
    | some key => (key, bs)
    | none =>
      if b₀ ≠ 27 then
        if Utf8.fullRune b then ((Utf8.decodeRune b).1, b.drop (Utf8.decodeRune b).2)
        else (runeError, b)
      else escapeSequence b pasteActive

def isPrintable (key : Rune) : Bool := 32 ≤ key && !(0xd800 ≤ key && key ≤ 0xdbff)

inductive Key where
  | backspace
  | altLeft
  | altRight
  | left
  | right
  | home
  | «end»
  | up
  | down
  | enter
  | deleteWord
  | deleteLine
  | ctrlD
  | ctrlU
  | clearScreen
  | other
  deriving DecidableEq, Repr

namespace Key

/-- The rune of a case; `other` is the default. -/
def rune : Key → Option Rune
  | .backspace => some keyBackspace
  | .altLeft => some keyAltLeft
  | .altRight => some keyAltRight
  | .left => some keyLeft
  | .right => some keyRight
  | .home => some keyHome
  | .end => some keyEnd
  | .up => some keyUp
  | .down => some keyDown
  | .enter => some keyEnter
  | .deleteWord => some keyDeleteWord
  | .deleteLine => some keyDeleteLine
  | .ctrlD => some keyCtrlD
  | .ctrlU => some keyCtrlU
  | .clearScreen => some keyClearScreen
  | .other => none

def cases : List Key :=
  [.backspace, .altLeft, .altRight, .left, .right, .home, .end, .up, .down, .enter, .deleteWord,
    .deleteLine, .ctrlD, .ctrlU, .clearScreen]

def of (key : Rune) : Key := (cases.find? fun k => k.rune = some key).getD .other

theorem rune_of (h : of key = k) (hk : k ≠ .other) : k.rune = some key := by
  unfold of at h
  cases hf : cases.find? fun k => k.rune = some key with
  | none =>
    rw [hf] at h
    exact absurd h.symm hk
  | some k' =>
    rw [hf] at h
    have hr := find?_some hf
    rw [← show k' = k from h]
    exact of_decide_eq_true hr

end Key

/-- A ring buffer of strings; `entries` has no element before the first `add`. -/
structure StRingBuffer where
  entries : List Bytes
  max : Nat
  head : Nat
  size : Nat
  deriving DecidableEq, Repr

namespace StRingBuffer

def empty : StRingBuffer := ⟨[], 0, 0, 0⟩

def defaultNumEntries : Nat := 100

def add (s : StRingBuffer) (a : Bytes) : StRingBuffer :=
  let s := if s.entries = [] then
    { s with entries := replicate defaultNumEntries [], max := defaultNumEntries } else s
  let head := (s.head + 1) % s.max
  { s with
    head
    entries := s.entries.set head a
    size := if s.size < s.max then s.size + 1 else s.size }

/-- The inner `none` is the result `false`. -/
def nthPreviousEntry (s : StRingBuffer) (n : Int) : Option (Option Bytes) :=
  if n ≥ s.size then some none
  else
    let index := if (s.head : Int) - n < 0 then s.head - n + s.max else s.head - n
    if index < 0 then none else s.entries[index.toNat]?.map some

end StRingBuffer

/-- What a terminal writes to. The writes to come end as `outcomes` tells: with an error after some
bytes, or well; later ones end well. -/
structure Conn where
  written : Bytes
  outcomes : List (Option (Nat × Err))
  deriving DecidableEq, Repr

def Conn.write (c : Conn) (p : Bytes) : Nat × Option Err × Conn :=
  match c.outcomes with
  | [] => (p.length, none, { c with written := c.written ++ p })
  | none :: os => (p.length, none, ⟨c.written ++ p, os⟩)
  | some (n, err) :: os => (min n p.length, some err, ⟨c.written ++ p.take n, os⟩)

def crlf : Bytes := [13, 10]

/-- Each `\n` becomes `\r\n`, and counts once. -/
def Conn.writeWithCRLF (c : Conn) (buf : Bytes) : Nat × Option Err × Conn :=
  match buf with
  | [] => (0, none, c)
  | b :: bs =>
    let todo := (b :: bs).takeWhile (· ≠ 10)
    match c.write todo with
    | (n, some err, c) => (n, some err, c)
    | (n, none, c) =>
      match _h : (b :: bs).dropWhile (· ≠ 10) with
      | [] => (n, none, c)
      | _ :: rest =>
        match c.write crlf with
        | (_, some err, c) => (n, some err, c)
        | (_, none, c) =>
          let (m, err, c) := c.writeWithCRLF rest
          (n + 1 + m, err, c)
  termination_by buf.length
  decreasing_by
    have hlen := (dropWhile_suffix (l := b :: bs) fun x => decide (x ≠ 10)).length_le
    rw [_h, length_cons] at hlen
    exact hlen

/-- `autoComplete` says that there is an `AutoCompleteCallback`. -/
structure Terminal where
  autoComplete : Bool
  c : Conn
  prompt : List Rune
  line : List Rune
  pos : Int
  echo : Bool
  pasteActive : Bool
  cursorX : Int
  cursorY : Int
  maxLine : Int
  termWidth : Int
  outBuf : Bytes
  remainder : Bytes
  history : StRingBuffer
  historyIndex : Int
  historyPending : Bytes
  deriving DecidableEq, Repr

def space : List Rune := [32]

def maxLineLength : Nat := 4096

def inBufSize : Nat := 256

/-- ESC `[` and a letter. -/
def vt100 (letter : Char) : List Rune := [keyEscape, 91, letter.toNat]

/-- The number of visible glyphs, from a place that is in an escape sequence or not. -/
def visualFrom (inEscapeSeq : Bool) : List Rune → Nat
  | [] => 0
  | r :: rs =>
    if inEscapeSeq then
      visualFrom (!((97 ≤ r && r ≤ 122) || (65 ≤ r && r ≤ 90))) rs
    else if r = 27 then visualFrom true rs
    else visualFrom false rs + 1

def visualLength (runes : List Rune) : Nat := visualFrom false runes

/-- `s[i:]`. -/
def sliceFrom (s : List α) (i : Int) : Option (List α) :=
  if 0 ≤ i ∧ i ≤ s.length then some (s.drop i.toNat) else none

/-- `s[:i]`, for an index up to the length. -/
def sliceTo (s : List α) (i : Int) : Option (List α) :=
  if 0 ≤ i ∧ i ≤ s.length then some (s.take i.toNat) else none

/-- A loop whose body does not look at its counter. -/
def repeatTimes (f : α → Option α) : Nat → α → Option α
  | 0, x => some x
  | n + 1, x => (f x).bind (repeatTimes f n)

namespace Terminal

def newTerminal (c : Conn) (prompt : Bytes) (autoComplete : Bool) : Terminal where
  autoComplete := autoComplete
  c := c
  prompt := Utf8.decode prompt
  line := []
  pos := 0
  echo := true
  pasteActive := false
  cursorX := 0
  cursorY := 0
  maxLine := 0
  termWidth := 80
  outBuf := []
  remainder := []
  history := .empty
  historyIndex := -1
  historyPending := []

def queue (t : Terminal) (data : List Rune) : Terminal :=
  { t with outBuf := t.outBuf ++ Utf8.encode data }

/-- The slice for the sequences has room for their sum, which a negative count makes too small. -/
def move (t : Terminal) (up down left right : Int) : Option Terminal :=
  if 0 ≤ up ∧ 0 ≤ down ∧ 0 ≤ left ∧ 0 ≤ right then
    some (t.queue ((replicate up.toNat (vt100 'A') ++ replicate down.toNat (vt100 'B') ++
      replicate left.toNat (vt100 'D') ++ replicate right.toNat (vt100 'C')).flatten))
  else none

def moveCursorToPos (t : Terminal) (pos : Int) : Option Terminal :=
  if t.echo = false then some t
  else if t.termWidth = 0 then none
  else
    let y := (visualLength t.prompt + pos).tdiv t.termWidth
    let x := (visualLength t.prompt + pos).tmod t.termWidth
    let up := if y < t.cursorY then t.cursorY - y else 0
    let down := if y > t.cursorY then y - t.cursorY else 0
    let left := if x < t.cursorX then t.cursorX - x else 0
    let right := if x > t.cursorX then x - t.cursorX else 0
    move { t with cursorX := x, cursorY := y } up down left right

def clearLineToRight (t : Terminal) : Terminal := t.queue (vt100 'K')

/-- At the end of a row the cursor needs a newline to go on. -/
def advanceCursor (t : Terminal) (places : Int) : Option Terminal :=
  if t.termWidth = 0 then none
  else
    let x := t.cursorX + places
    let y := t.cursorY + x.tdiv t.termWidth
    let t := { t with
      cursorX := x.tmod t.termWidth
      cursorY := y
      maxLine := if y > t.maxLine then y else t.maxLine }
    some (if places > 0 ∧ t.cursorX = 0 then { t with outBuf := t.outBuf ++ crlf } else t)

theorem advanceCursor_cursor {t t' : Terminal} (h : t.advanceCursor n = some t') :
    t'.termWidth = t.termWidth ∧ t'.cursorX ≠ t'.termWidth := by
  unfold advanceCursor at h
  split at h
  · cases h
  rename_i hw
  have hx : (t.cursorX + n).tmod t.termWidth ≠ t.termWidth := by
    intro hx
    have hmod := Int.natAbs_tmod (t.cursorX + n) t.termWidth
    have hlt := Nat.mod_lt (t.cursorX + n).natAbs (Int.natAbs_pos.mpr hw)
    rw [← hmod, hx] at hlt
    exact Nat.lt_irrefl _ hlt
  dsimp only at h
  split at h <;> cases h <;> exact ⟨rfl, hx⟩

/-- How many of `n` runes `writeLine` takes for the row the cursor is in. -/
def todo (t : Terminal) (n : Nat) : Int :=
  if (n : Int) > t.termWidth - t.cursorX then t.termWidth - t.cursorX else n

theorem cursorX_of_todo_eq_zero {t : Terminal} (hn : 0 < n) (h : t.todo n = 0) :
    t.cursorX = t.termWidth := by
  unfold todo at h
  split at h <;> omega

/-- A cursor beyond the last column is brought to the next row before anything is written. -/
def writeLine (t : Terminal) (line : List Rune) : Option Terminal :=
  if _hl : line = [] then some t
  else if _hneg : t.todo line.length < 0 then none
  else
    let row := line.take (t.todo line.length).toNat
    match _h : (t.queue row).advanceCursor (visualLength row) with
    | none => none
    | some t' => t'.writeLine (line.drop (t.todo line.length).toNat)
  termination_by 2 * line.length + if t.cursorX = t.termWidth then 1 else 0
  decreasing_by
    have hpos := length_pos_iff.mpr _hl
    rw [if_neg (advanceCursor_cursor _h).2, length_drop]
    by_cases hz : t.todo line.length = 0
    · rw [if_pos (cursorX_of_todo_eq_zero hpos hz), hz]
      omega
    · omega

theorem writeLine_nil (t : Terminal) : t.writeLine [] = some t := by
  rw [writeLine, dif_pos rfl]

theorem writeLine_row {t : Terminal} {line : List Rune} (hl : line ≠ []) : t.writeLine line =
    if t.todo line.length < 0 then none
    else ((t.queue (line.take (t.todo line.length).toNat)).advanceCursor
      (visualLength (line.take (t.todo line.length).toNat))).bind
        (·.writeLine (line.drop (t.todo line.length).toNat)) := by
  rw [writeLine, dif_neg hl]
  split
  · rfl
  dsimp only
  split
  · rename_i h
    rw [h]
    rfl
  · rename_i h
    rw [h]
    rfl

section

variable (t : Terminal)

def setLine (newLine : List Rune) (newPos : Int) : Option Terminal := do
  let t ← if t.echo then do
      let u ← t.moveCursorToPos 0
      let u ← u.writeLine newLine
      let u ← repeatTimes (·.writeLine space) (t.line.length - newLine.length) u
      u.moveCursorToPos newPos
    else some t
  some { t with line := newLine, pos := newPos }

def eraseNPreviousChars (n : Int) : Option Terminal :=
  if n = 0 then some t
  else do
    let n := if t.pos < n then t.pos else n
    let t := { t with pos := t.pos - n }
    let t ← t.moveCursorToPos t.pos
    let _ ← sliceFrom t.line t.pos
    let tail ← sliceFrom t.line (n + t.pos)
    let t := { t with line := t.line.take t.pos.toNat ++ tail }
    if t.echo then do
      let t ← t.writeLine tail
      let t := t.queue (replicate n.toNat 32)
      let t ← t.advanceCursor n
      t.moveCursorToPos t.pos
    else some t

/-- The first loop of `countToLeftWord`: over the spaces. -/
def skipSpaces (line : List Rune) : Nat → Option Nat
  | 0 => some 0
  | pos + 1 => (line)[pos + 1]?.bind fun r => if r ≠ 32 then some (pos + 1) else skipSpaces line pos

/-- The second one: over the word. -/
def skipWord (line : List Rune) : Nat → Option Nat
  | 0 => some 0
  | pos + 1 => (line)[pos + 1]?.bind fun r => if r = 32 then some (pos + 2) else skipWord line pos

def countToLeftWord : Option Int :=
  if t.pos = 0 then some 0
  else if t.pos ≤ 1 then some 1
  else do
    let pos ← skipSpaces t.line (t.pos - 1).toNat
    let pos ← skipWord t.line pos
    some (t.pos - pos)

def countToRightWord : Option Int :=
  if t.pos < 0 then none
  else
    let tail := t.line.drop t.pos.toNat
    let word := tail.takeWhile (· ≠ 32)
    some (word.length + ((tail.drop word.length).takeWhile (· = 32)).length)

def addKeyToLine (key : Rune) : Option Terminal := do
  let tail ← sliceFrom t.line t.pos
  let t := { t with line := t.line.take t.pos.toNat ++ key :: tail }
  let t ← if t.echo then t.writeLine (key :: tail) else some t
  let t := { t with pos := t.pos + 1 }
  t.moveCursorToPos t.pos

def insertKey (key : Rune) : Option Terminal :=
  if isPrintable key = false then some t
  else if t.line.length = maxLineLength then some t
  else t.addKeyToLine key

/-- What `handleKey` comes to: no line yet, a line, or a call of `AutoCompleteCallback`. -/
inductive KeyResult where
  | more
  | line (s : Bytes)
  | complete
  deriving DecidableEq, Repr

def showEntry (entry : Bytes) (historyIndex : Int) : Option Terminal :=
  setLine { t with historyIndex } (Utf8.decode entry) (Utf8.decode entry).length

def handleUp : Option Terminal := do
  match ← t.history.nthPreviousEntry (t.historyIndex + 1) with
  | none => some t
  | some entry =>
    let t := if t.historyIndex = -1 then { t with historyPending := Utf8.encode t.line } else t
    t.showEntry entry (t.historyIndex + 1)

def handleDown : Option Terminal :=
  if t.historyIndex = -1 then some t
  else if t.historyIndex = 0 then t.showEntry t.historyPending (-1)
  else do
    match ← t.history.nthPreviousEntry (t.historyIndex - 1) with
    | none => some t
    | some entry => t.showEntry entry (t.historyIndex - 1)

def handleEnter : Option (Terminal × KeyResult) := do
  let t ← t.moveCursorToPos t.line.length
  let t := t.queue [13, 10]
  some ({ t with line := [], pos := 0, cursorX := 0, cursorY := 0, maxLine := 0 },
    .line (Utf8.encode t.line))

def handleDeleteLine : Option Terminal := do
  let u ← repeatTimes (fun u => (u.queue space).advanceCursor 1) (t.line.length - t.pos).toNat t
  let head ← sliceTo u.line u.pos
  { u with line := head }.moveCursorToPos u.pos

def handleClearScreen : Option Terminal := do
  let t := (t.queue (vt100 '2' ++ ['J'.toNat] ++ vt100 'H')).queue t.prompt
  let t ← { t with cursorX := 0, cursorY := 0 }.advanceCursor (visualLength t.prompt)
  t.setLine t.line t.pos

end

def edited (t : Option Terminal) : Option (Terminal × KeyResult) := t.map (·, .more)

variable (t : Terminal)

def handleCase (key : Rune) : Key → Option (Terminal × KeyResult)
  | .backspace => edited (if t.pos = 0 then some t else t.eraseNPreviousChars 1)
  | .altLeft => edited do
    let n ← t.countToLeftWord
    { t with pos := t.pos - n }.moveCursorToPos (t.pos - n)
  | .altRight => edited do
    let n ← t.countToRightWord
    { t with pos := t.pos + n }.moveCursorToPos (t.pos + n)
  | .left => edited <|
    if t.pos = 0 then some t else { t with pos := t.pos - 1 }.moveCursorToPos (t.pos - 1)
  | .right => edited <|
    if t.pos = t.line.length then some t
    else { t with pos := t.pos + 1 }.moveCursorToPos (t.pos + 1)
  | .home => edited (if t.pos = 0 then some t else { t with pos := 0 }.moveCursorToPos 0)
  | .end => edited <|
    if t.pos = t.line.length then some t
    else { t with pos := t.line.length }.moveCursorToPos t.line.length
  | .up => edited t.handleUp
  | .down => edited t.handleDown
  | .enter => t.handleEnter
  | .deleteWord => edited (t.countToLeftWord.bind t.eraseNPreviousChars)
  | .deleteLine => edited t.handleDeleteLine
  | .ctrlD => edited <|
    if t.pos < t.line.length then eraseNPreviousChars { t with pos := t.pos + 1 } 1 else some t
  | .ctrlU => edited (t.eraseNPreviousChars t.pos)
  | .clearScreen => edited t.handleClearScreen
  | .other =>
    -- the line is cut at the cursor for the callback
    if t.autoComplete then (sliceTo t.line t.pos).map fun _ => (t, .complete)
    else edited (t.insertKey key)

def handleKey (key : Rune) : Option (Terminal × KeyResult) :=
  if t.pasteActive ∧ key ≠ keyEnter then edited (t.addKeyToLine key)
  else t.handleCase key (.of key)

/-- The rest of `handleKey` after the call of `AutoCompleteCallback`, whose result is `none` for
`false`. -/
def completed (key : Rune) : Option (Bytes × Int) → Option Terminal
  | none => t.insertKey key
  | some (newLine, newPos) => do
    let head ← sliceTo newLine newPos
    t.setLine (Utf8.decode newLine) (Utf8.runeCount head)

def flush : Option Err × Terminal :=
  let (_, err, c) := t.c.write t.outBuf
  (err, { t with c, outBuf := [] })

def clearRows (dir : Terminal → Option Terminal) (n : Nat) : Option Terminal :=
  repeatTimes (fun t => (dir t).map clearLineToRight) n t

/-- The part of `Write` that makes room for the text. -/
def clearInput : Option Terminal := do
  let t ← t.move 0 0 t.cursorX 0
  let t ← { t with cursorX := 0 }.clearLineToRight.clearRows (·.move 1 0 0 0) t.cursorY.toNat
  some { t with cursorY := if t.cursorY > 0 then 0 else t.cursorY }

/-- The part of `Write` that shows the prompt and the line again. -/
def showInput : Option Terminal := do
  let t ← t.writeLine t.prompt
  let t ← if t.echo then t.writeLine t.line else some t
  t.moveCursorToPos t.pos

def write (buf : Bytes) : Option (Nat × Option Err × Terminal) :=
  if t.cursorX = 0 ∧ t.cursorY = 0 then
    let (n, err, c) := t.c.writeWithCRLF buf
    some (n, err, { t with c })
  else do
    let t ← t.clearInput
    match t.c.write t.outBuf with
    | (_, some err, c) => some (0, some err, { t with c })
    | (_, none, c) =>
      match c.writeWithCRLF buf with
      | (n, some err, c) => some (n, some err, { t with c, outBuf := [] })
      | (n, none, c) => do
        let t ← showInput { t with c, outBuf := [] }
        match t.c.write t.outBuf with
        | (_, some err, c) => some (n, some err, { t with c })
        | (_, none, c) => some (n, none, { t with c, outBuf := [] })

def clearAndRepaintLinePlusNPrevious (numPrevLines : Int) : Option Terminal := do
  let t ← t.move t.cursorY 0 t.cursorX 0
  let t ← { t with cursorX := 0, cursorY := 0 }.clearLineToRight.clearRows (·.move 0 1 0 0)
    numPrevLines.toNat
  let t ← t.move numPrevLines.toNat 0 0 0
  let t := { t with cursorX := 0, cursorY := 0 }.queue t.prompt
  let t ← t.advanceCursor (visualLength t.prompt)
  let t ← t.writeLine t.line
  t.moveCursorToPos t.pos

def setSize (width : Int) : Option (Option Err × Terminal) :=
  let width := if width = 0 then 1 else width
  let oldWidth := t.termWidth
  let t := { t with termWidth := width }
  if width = oldWidth then some (none, t)
  else if t.line = [] ∧ t.cursorX = 0 ∧ t.cursorY = 0 then some (none, t)
  else if width < oldWidth then
    let x := if t.cursorX ≥ width then width - 1 else t.cursorX
    (clearAndRepaintLinePlusNPrevious { t with cursorX := x, cursorY := t.cursorY * 2 }
      (t.maxLine * 2)).map flush
  else (t.clearAndRepaintLinePlusNPrevious t.maxLine).map flush

def setPrompt (prompt : Bytes) : Terminal :=
  { t with prompt := Utf8.decode prompt }

/-- The end of a round of `readLine`: what is left of the input goes to the front of `inBuf`. -/
def keepRest (rest : Bytes) : Terminal :=
  { t with remainder := rest.take inBufSize }

def showPrompt : Option Terminal :=
  if t.cursorX = 0 ∧ t.cursorY = 0 then (t.writeLine t.prompt).map fun t => t.flush.2 else some t

/-- A finished line goes into the history, unless it was typed without echo. -/
def remember (line : Bytes) : Terminal :=
  if t.echo then { t with historyIndex := -1, history := t.history.add line } else t

end Terminal

def errPasteIndicator : Err := .text "terminal: ErrPasteIndicator not correctly handled"

/-- Which of the two is reading; `ReadPassword` keeps the prompt it has replaced. -/
inductive ReadCall where
  | readLine
  | readPassword (oldPrompt : List Rune)
  deriving DecidableEq, Repr

/-- Where the reading goroutine is. Only in `keys` does it hold the lock. -/
inductive ReaderPc where
  | idle
  | keys (call : ReadCall) (lineIsPasted : Bool) (rest : Bytes)
  | reading (call : ReadCall) (lineIsPasted : Bool)
  | completing (call : ReadCall) (lineIsPasted : Bool) (key : Rune) (rest : Bytes)
  | panicked
  deriving DecidableEq, Repr

/-- A terminal, its reader and what the calls of `ReadLine` and of `ReadPassword` have returned. -/
structure LineSession where
  term : Terminal
  pc : ReaderPc
  lines : List (Bytes × Option Err)
  passwords : List (Bytes × Option Err)
  deriving DecidableEq, Repr

/-- The calls, one turn of the loop over the keys, the ends of `Read` and of the callback. -/
inductive LineAct where
  | readLine
  | readPassword (prompt : Bytes)
  | key
  | read (b : Bytes)
  | readError (err : Err)
  | complete (result : Option (Bytes × Int))
  | write (buf : Bytes)
  | setSize (width : Int)
  | setPrompt (prompt : Bytes)
  deriving DecidableEq, Repr

namespace LineSession

def start (t : Terminal) : LineSession := ⟨t, .idle, [], []⟩

section

variable (s : LineSession)

def goOn (f : Terminal → ReaderPc) : Option Terminal → LineSession
  | none => { s with pc := .panicked }
  | some t => { s with term := t, pc := f t }

/-- `readLine` returns; `ReadPassword` puts the prompt and the echo back. -/
def finish (t : Terminal) (call : ReadCall) (line : Bytes) (err : Option Err) :
    LineSession :=
  match call with
  | .readLine => { s with term := t, pc := .idle, lines := s.lines ++ [(line, err)] }
  | .readPassword oldPrompt =>
    { s with
      term := { t with prompt := oldPrompt, echo := true }
      pc := .idle
      passwords := s.passwords ++ [(line, err)] }

/-- `readLine` up to the first turn of the loop. -/
def begin (call : ReadCall) (t : Terminal) : LineSession :=
  s.goOn (fun t => .keys call t.pasteActive t.remainder) t.showPrompt

def handled (call : ReadCall) (lineIsPasted : Bool) (key : Rune) (rest : Bytes) :
    Option (Terminal × Terminal.KeyResult) → LineSession
  | none => { s with pc := .panicked }
  | some (t, .more) => { s with term := t, pc := .keys call lineIsPasted rest }
  | some (t, .complete) => { s with term := t, pc := .completing call lineIsPasted key rest }
  | some (t, .line line) =>
    s.finish ((t.keepRest rest).flush.2.remember line) call line
      (if lineIsPasted then some errPasteIndicator else none)

def turn (call : ReadCall) (lineIsPasted : Bool) (key : Rune) (rest : Bytes) :
    LineSession :=
  if key = runeError then
    { s with term := (s.term.keepRest rest).flush.2, pc := .reading call lineIsPasted }
  else if s.term.pasteActive = false ∧ key = keyCtrlD ∧ s.term.line = [] then
    s.finish s.term call [] (some .eof)
  else if s.term.pasteActive = false ∧ key = keyPasteStart then
    { s with
      term := { s.term with pasteActive := true }
      pc := .keys call (lineIsPasted || s.term.line.isEmpty) rest }
  else if s.term.pasteActive = true ∧ key = keyPasteEnd then
    { s with
      term := { s.term with pasteActive := false }
      pc := .keys call lineIsPasted rest }
  else
    s.handled call (s.term.pasteActive && lineIsPasted) key rest (s.term.handleKey key)

/-- The calls that other goroutines make, while nobody holds the lock. -/
def other : LineAct → Option LineSession
  | .write buf => some (s.goOn (fun _ => s.pc) ((s.term.write buf).map fun r => r.2.2))
  | .setSize width => some (s.goOn (fun _ => s.pc) ((s.term.setSize width).map fun r => r.2))
  | .setPrompt prompt => some { s with term := s.term.setPrompt prompt }
  | _ => none

/-- A `Read` that gives an error gives nothing else: what it has read is dropped. -/
def step (a : LineAct) : Option LineSession :=
  match s.pc, a with
  | .idle, .readLine => some (s.begin .readLine s.term)
  | .idle, .readPassword prompt =>
    some (s.begin (.readPassword s.term.prompt) { s.term.setPrompt prompt with echo := false })
  | .keys call pasted rest, .key =>
    let (key, rest) := bytesToKey rest s.term.pasteActive
    some (s.turn call pasted key rest)
  | .reading call pasted, .read b =>
    if s.term.remainder.length + b.length ≤ inBufSize then
      let t := { s.term with remainder := s.term.remainder ++ b }
      some { s with term := t, pc := .keys call pasted t.remainder }
    else none
  | .reading call _, .readError err => some (s.finish s.term call [] (some err))
  | .completing call pasted key rest, .complete result =>
    some (s.goOn (fun _ => .keys call pasted rest) (s.term.completed key result))
  | .keys .., _ => none
  | .panicked, _ => none
  | _, a => s.other a

end

inductive Moves (s : LineSession) : LineAct → LineSession → Prop where
  | readLine : s.pc = .idle → Moves s .readLine (s.begin .readLine s.term)
  | readPassword : s.pc = .idle → Moves s (.readPassword prompt)
      (s.begin (.readPassword s.term.prompt) { s.term.setPrompt prompt with echo := false })
  | key : s.pc = .keys call pasted rest →
      bytesToKey rest s.term.pasteActive = (key, rest') →
      Moves s .key (s.turn call pasted key rest')
  | read : s.pc = .reading call pasted → s.term.remainder.length + b.length ≤ inBufSize →
      Moves s (.read b)
        { s with
          term := { s.term with remainder := s.term.remainder ++ b }
          pc := .keys call pasted (s.term.remainder ++ b) }
  | readError : s.pc = .reading call pasted →
      Moves s (.readError err) (s.finish s.term call [] (some err))
  | complete : s.pc = .completing call pasted key rest →
      Moves s (.complete result)
        (s.goOn (fun _ => .keys call pasted rest) (s.term.completed key result))
  | other : (∀ call pasted rest, s.pc ≠ .keys call pasted rest) → s.pc ≠ .panicked →
      s.other a = some s' → Moves s a s'

theorem moves_of_step (h : step s a = some s') : Moves s a s' := by
  unfold step at h
  split at h
  · cases h
    exact .readLine ‹_›
  · cases h
    exact .readPassword ‹_›
  · cases h
    exact .key ‹_› rfl
  · split at h
    · cases h
      exact .read ‹_› ‹_›
    · cases h
  · cases h
    exact .readError ‹_›
  · cases h
    exact .complete ‹_›
  · cases h
  · cases h
  · rename_i hkeys hpanicked _ _ _ _ _ _
    exact .other hkeys hpanicked h

end LineSession

end XCryptoSsh
