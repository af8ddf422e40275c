import XCryptoSsh.TerminalKeys
import XCryptoSsh.TerminalPairs

namespace XCryptoSsh
open List Option Terminal
set_option autoImplicit true

open Go (Bytes)
open Utf8 (Rune runeError)

abbrev Muted : Terminal → Terminal → Prop := Paired none

namespace Muted

variable {t u : Terminal}

theorem mk (t : Terminal) (c : Conn) (outBuf remainder : Bytes) :
    Muted t { t with c, outBuf, remainder } := .intro t t.line c outBuf remainder .same nofun

section

variable (h : Muted t u)

include h

theorem exists_eq : ∃ c outBuf remainder, u = { t with c, outBuf, remainder } := by
  cases h with
  | intro line c outBuf remainder hl =>
    cases hl.2 rfl
    exact ⟨c, outBuf, remainder, rfl⟩

theorem line : u.line = t.line := h.line_eq (.inl rfl)

theorem showPrompt : Option.Rel Muted t.showPrompt u.showPrompt := by
  have hprompt := h.writeLine t.prompt
  obtain ⟨c, outBuf, remainder, rfl⟩ := h.exists_eq
  unfold showPrompt
  dsimp only
  split
  · exact rel_map hprompt fun _ _ hab => hab.flush
  · exact .some h

theorem remember (l : Bytes) : Muted (t.remember l) (u.remember l) := by
  obtain ⟨c, outBuf, remainder, rfl⟩ := h.exists_eq
  unfold remember
  dsimp only
  split
  · exact .mk _ c outBuf remainder
  · exact h

theorem setLeft (r : Bytes) : Muted { t with remainder := r } u :=
  h.setRemainder r _

theorem setRight (r : Bytes) : Muted t { u with remainder := r } :=
  h.setRemainder _ r

theorem keepLeft (r : Bytes) : Muted (t.keepRest r).flush.2 u := by
  obtain ⟨c, outBuf, remainder, rfl⟩ := h.exists_eq
  exact .mk (t.keepRest r).flush.2 c outBuf remainder

theorem setPaste (q : Bool) : Muted { t with pasteActive := q } { u with pasteActive := q } := by
  obtain ⟨c, outBuf, remainder, rfl⟩ := h.exists_eq
  exact .mk _ c outBuf remainder

end

end Muted

structure Completion where
  line : Bytes
  pos : Nat
  key : Rune
  deriving DecidableEq, Repr

/-- A session in which `ReadLine` is called again and again, with the reads to come and the calls of
the callback so far. -/
structure Feed where
  session : LineSession
  reads : List Bytes
  calls : List Completion
  deriving DecidableEq, Repr

namespace Feed

abbrev Answers := List Completion → Option (Bytes × Int)

def start (t : Terminal) (reads : List Bytes) : Feed := ⟨.start t, reads, []⟩

def ended (f : Feed) : Bool := f.session.lines.any fun l => l.2 == some .eof

def completion (t : Terminal) (key : Rune) : Completion where
  line := Utf8.encode t.line
  pos := (Utf8.encode (t.line.take t.pos.toNat)).length
  key := key

def readsLeft (n : Nat) (b : Bytes) (bs : List Bytes) : List Bytes :=
  if b.drop n = [] then bs else b.drop n :: bs

theorem flatten_readsLeft : (readsLeft n b bs).flatten = b.drop n ++ bs.flatten := by
  unfold readsLeft
  split
  · rename_i h
    rw [h, nil_append]
  · rfl

theorem append_readsLeft (r : Bytes) :
    r ++ b.take n ++ (readsLeft n b bs).flatten = r ++ (b :: bs).flatten := by
  rw [flatten_readsLeft, append_assoc, ← append_assoc (b.take n),
    take_append_drop, flatten_cons]

/-- The next step; a read that is longer than the buffer is given out in parts. -/
def next (answer : Answers) (f : Feed) : Option Feed :=
  match f.session.pc with
  | .idle => (f.session.step .readLine).map ({ f with session := · })
  | .keys .. => (f.session.step .key).map ({ f with session := · })
  | .reading .. =>
    match f.reads with
    | [] => (f.session.step (.readError .eof)).map ({ f with session := · })
    | b :: bs =>
      let n := inBufSize - f.session.term.remainder.length
      (f.session.step (.read (b.take n))).map fun s =>
        { f with session := s, reads := readsLeft n b bs }
  | .completing _ _ key _ =>
    let calls := f.calls ++ [completion f.session.term key]
    (f.session.step (.complete (answer calls))).map fun s => { f with session := s, calls }
  | .panicked => none

def run (answer : Answers) : Nat → Feed → Feed
  | 0, f => f
  | n + 1, f =>
    if f.ended then f
    else match f.next answer with
      | none => f
      | some f' => f'.run answer n

def wholeNext (answer : Answers) (f : Feed) : Option Feed :=
  match f.session.pc with
  | .idle => some { f with session := f.session.begin .readLine f.session.term }
  | .keys call pasted rest =>
    let (key, rest) := bytesToKey rest f.session.term.pasteActive
    if key = runeError then
      some { f with session := f.session.finish f.session.term call [] (some .eof) }
    else
      let s := f.session.turn call pasted key rest
      some { f with session := { s with term.remainder := rest } }
  | .completing call pasted key rest =>
    let calls := f.calls ++ [completion f.session.term key]
    some { f with
      session := f.session.goOn (fun _ => .keys call pasted rest)
        (f.session.term.completed key (answer calls))
      calls }
  | _ => none

def wholeRun (answer : Answers) : Nat → Feed → Feed
  | 0, f => f
  | n + 1, f =>
    if f.ended then f
    else match f.wholeNext answer with
      | none => f
      | some f' => f'.wholeRun answer n

def stopped (f : Feed) : Prop := f.ended = true ∨ f.session.pc = .panicked

theorem wholeRun_stopped (h : stopped f) (n : Nat) : f.wholeRun answer n = f := by
  cases n with
  | zero => rfl
  | succ n =>
    rw [wholeRun]
    split
    · rfl
    rename_i he
    have hp : f.session.pc = .panicked := h.resolve_left he
    have hn : f.wholeNext answer = none := by
      rw [wholeNext, hp]
    rw [hn]

theorem wholeRun_add (f : Feed) (m n : Nat) :
    f.wholeRun answer (m + n) = (f.wholeRun answer m).wholeRun answer n := by
  induction m generalizing f with
  | zero => rw [Nat.zero_add, wholeRun]
  | succ m ih =>
    rw [show m + 1 + n = m + n + 1 by omega, wholeRun, wholeRun]
    split
    · rename_i he
      exact (wholeRun_stopped (.inl he) n).symm
    rename_i he
    cases hn : f.wholeNext answer with
    | none =>
      cases n with
      | zero => rfl
      | succ n => rw [wholeRun, if_neg he, hn]
    | some f' => exact ih f'

theorem wholeRun_eq {f : Feed} (hm : stopped (f.wholeRun answer m))
    (hn : stopped (f.wholeRun answer n)) :
    f.wholeRun answer m = f.wholeRun answer n := by
  rw [← wholeRun_stopped hm n, ← wholeRun_add, Nat.add_comm, wholeRun_add, wholeRun_stopped hn m]

end Feed

inductive Twin (r₁ r₂ : Bytes) : LineSession → LineSession → Prop where
  | keys : Muted t₁ t₂ → Twin r₁ r₂ ⟨t₁, .keys .readLine pasted r₁, ls, ps₁⟩
      ⟨t₂, .keys .readLine pasted r₂, ls, ps₂⟩
  | completing : Muted t₁ t₂ → Twin r₁ r₂ ⟨t₁, .completing .readLine pasted k r₁, ls, ps₁⟩
      ⟨t₂, .completing .readLine pasted k r₂, ls, ps₂⟩
  | line : Muted t₁ t₂ → t₁.remainder = r₁.take inBufSize →
      Twin r₁ r₂ ⟨t₁, .idle, ls, ps₁⟩ ⟨t₂, .idle, ls, ps₂⟩
  | eof : Twin r₁ r₂ ⟨t₁, .idle, ls ++ [([], some .eof)], ps₁⟩
      ⟨t₂, .idle, ls ++ [([], some .eof)], ps₂⟩
  | panicked : Twin r₁ r₂ ⟨t₁, .panicked, ls, ps₁⟩ ⟨t₂, .panicked, ls, ps₂⟩

namespace LineSession

theorem handled_twin {x y : Option (Terminal × Terminal.KeyResult)}
    (hx : Option.Rel (SameOutcome none k) x y) :
    Twin r₁ r₂ (handled ⟨t₁, pc₁, ls, ps₁⟩ .readLine pasted k r₁ x)
      (handled ⟨t₂, pc₂, ls, ps₂⟩ .readLine pasted k r₂ y) := by
  cases hx with
  | none => exact .panicked
  | some h =>
    cases h with
    | more hm => exact .keys hm
    | complete hm => exact .completing hm
    | @line _ _ l _ hm _ _ hl =>
      cases hl rfl
      apply Twin.line
      · exact Muted.remember (hm.setRemainder _ _).flush l
      · unfold remember
        split <;> rfl

theorem turn_twin (h : Muted t₁ t₂) (hk : k ≠ runeError) :
    Twin r₁ r₂ (turn ⟨t₁, pc₁, ls, ps₁⟩ .readLine pasted k r₁)
      (turn ⟨t₂, pc₂, ls, ps₂⟩ .readLine pasted k r₂) := by
  have hpaste := h.setPaste
  have hkey := h.handleKey (.inl (Eq.refl k)) (fun _ => rfl) (.inl rfl)
  obtain ⟨c, outBuf, remainder, rfl⟩ := h.exists_eq
  simp only [turn, if_neg hk]
  split
  · exact .eof
  split
  · exact .keys (hpaste true)
  split
  · exact .keys (hpaste false)
  · exact handled_twin hkey

end LineSession

namespace Feed

structure Good (r : Bytes) (reads : List Bytes) : Prop where
  clean : Utf8.Clean (r ++ reads.flatten)
  short : ShortEscapes (r ++ reads.flatten)
  length : r.length ≤ inBufSize
  reads : ∀ b ∈ reads, b ≠ []

inductive Follows : Feed → Feed → Prop where
  | idle : Muted t₁ t₂ → Good r bs → t₁.remainder = r → t₂.remainder = r ++ bs.flatten →
      Follows ⟨⟨t₁, .idle, ls, ps₁⟩, bs, cs⟩ ⟨⟨t₂, .idle, ls, ps₂⟩, rs, cs⟩
  | keys : Muted t₁ t₂ → Good r bs →
      Follows ⟨⟨t₁, .keys .readLine pasted r, ls, ps₁⟩, bs, cs⟩
        ⟨⟨t₂, .keys .readLine pasted (r ++ bs.flatten), ls, ps₂⟩, rs, cs⟩
  | reading : Muted t₁ t₂ → Good r bs → t₁.remainder = r →
      bytesToKey r t₁.pasteActive = (runeError, r) →
      Follows ⟨⟨t₁, .reading .readLine pasted, ls, ps₁⟩, bs, cs⟩
        ⟨⟨t₂, .keys .readLine pasted (r ++ bs.flatten), ls, ps₂⟩, rs, cs⟩
  | completing : Muted t₁ t₂ → Good r bs →
      Follows ⟨⟨t₁, .completing .readLine pasted k r, ls, ps₁⟩, bs, cs⟩
        ⟨⟨t₂, .completing .readLine pasted k (r ++ bs.flatten), ls, ps₂⟩, rs, cs⟩
  | stopped : f.stopped → w.stopped → f.session.lines = w.session.lines → Follows f w

def potential (f : Feed) : Nat :=
  4 * f.reads.flatten.length + match f.session.pc with
    | .idle => 2 * f.session.term.remainder.length + 2
    | .keys _ _ rest => 2 * rest.length + 1
    | .completing _ _ _ rest => 2 * rest.length + 2
    | .reading .. => 2 * f.session.term.remainder.length
    | .panicked => 0

def Moved (answer : Answers) (f w : Feed) : Prop :=
  ∃ f', f.next answer = some f' ∧ (f'.stopped ∨ f'.potential < f.potential) ∧
    (Follows f' w ∨ ∃ w', w.wholeNext answer = some w' ∧ Follows f' w')

theorem ended_eof (ls : List (Bytes × Option Err)) :
    ended ⟨⟨t, pc, ls ++ [([], some .eof)], ps⟩, bs, cs⟩ = true := by
  unfold ended
  rw [any_append]
  exact Bool.or_true _

theorem follows_eof : Follows ⟨⟨t₁, pc₁, ls ++ [([], some Err.eof)], ps₁⟩, bs, cs⟩
    ⟨⟨t₂, pc₂, ls ++ [([], some Err.eof)], ps₂⟩, rs, cs⟩ :=
  .stopped (.inl (ended_eof _)) (.inl (ended_eof _)) rfl

theorem moved_idle (h : Muted t₁ t₂) (hg : Good r bs) (hr₁ : t₁.remainder = r)
    (hr₂ : t₂.remainder = r ++ bs.flatten) :
    Moved answer ⟨⟨t₁, .idle, ls, ps₁⟩, bs, cs⟩ ⟨⟨t₂, .idle, ls, ps₂⟩, rs, cs⟩ := by
  have hp := h.showPrompt
  have hn : next answer ⟨⟨t₁, .idle, ls, ps₁⟩, bs, cs⟩ =
      some ⟨LineSession.begin ⟨t₁, .idle, ls, ps₁⟩ .readLine t₁, bs, cs⟩ := rfl
  have hw : wholeNext answer ⟨⟨t₂, .idle, ls, ps₂⟩, rs, cs⟩ =
      some ⟨LineSession.begin ⟨t₂, .idle, ls, ps₂⟩ .readLine t₂, rs, cs⟩ := rfl
  unfold LineSession.begin at hn hw
  generalize h₁ : t₁.showPrompt = x at hp hn
  generalize h₂ : t₂.showPrompt = y at hp hw
  cases hp with
  | none => exact ⟨_, hn, .inl (.inr rfl), .inr ⟨_, hw, .stopped (.inr rfl) (.inr rfl) rfl⟩⟩
  | some hab =>
    have ha := (showPrompt_keeps h₁).2.trans hr₁
    have hb := (showPrompt_keeps h₂).2.trans hr₂
    refine ⟨_, hn, .inr ?_, .inr ⟨_, hw, ?_⟩⟩
    · simp only [potential, LineSession.goOn, ha, hr₁]
      omega
    · simp only [LineSession.goOn, ha, hb, hab.pasteActive]
      exact .keys hab hg

theorem Good.rest (hg : Good r bs) (hk : bytesToKey r p = (k, r')) (hne : k ≠ runeError) :
    Good r' bs := by
  have happ := bytesToKey_append hk hne bs.flatten
  exact {
    clean := clean_rest hg.clean happ hne
    short := hg.short.suffix (bytesToKey_suffix happ)
    length := Nat.le_trans (Nat.le_of_lt (bytesToKey_length hk hne)) hg.length
    reads := hg.reads }

theorem follows_twin (h : Twin r (r ++ bs.flatten) s₁ s₂) (hg : Good r bs) :
    Follows ⟨s₁, bs, cs⟩
      ⟨{ s₂ with term.remainder := r ++ bs.flatten }, rs, cs⟩ := by
  cases h with
  | keys h => exact .keys (h.setRight _) hg
  | completing h => exact .completing (h.setRight _) hg
  | line h hr =>
    rw [take_of_length_le hg.length] at hr
    exact .idle (h.setRight _) hg hr rfl
  | eof => exact follows_eof
  | panicked => exact .stopped (.inr rfl) (.inr rfl) rfl

theorem potential_twin (h : Twin r r₂ s₁ s₂) :
    stopped ⟨s₁, bs, cs⟩ ∨ potential ⟨s₁, bs, cs⟩ ≤ 4 * bs.flatten.length + 2 * r.length + 2 := by
  cases h with
  | keys h | completing h =>
    right
    simp only [potential]
    omega
  | line h hr =>
    right
    have hlen : (r.take inBufSize).length ≤ r.length := length_take_le' _ _
    simp only [potential, hr]
    omega
  | eof => exact .inl (.inl (ended_eof _))
  | panicked => exact .inl (.inr rfl)

theorem moved_keys (h : Muted t₁ t₂) (hg : Good r bs) :
    Moved answer ⟨⟨t₁, .keys .readLine pasted r, ls, ps₁⟩, bs, cs⟩
      ⟨⟨t₂, .keys .readLine pasted (r ++ bs.flatten), ls, ps₂⟩, rs, cs⟩ := by
  cases hk : bytesToKey r t₁.pasteActive with
  | mk k r' =>
    have hn : next answer ⟨⟨t₁, .keys .readLine pasted r, ls, ps₁⟩, bs, cs⟩ =
        some ⟨LineSession.turn ⟨t₁, .keys .readLine pasted r, ls, ps₁⟩ .readLine pasted k r',
          bs, cs⟩ := by
      simp only [next, LineSession.step, hk, map_some]
    by_cases hne : k = runeError
    · subst hne
      cases (unfinished_cases hg.clean hk).1
      rw [LineSession.turn, if_pos rfl] at hn
      have hrem : (t₁.keepRest r).flush.2.remainder = r := take_of_length_le hg.length
      refine ⟨_, hn, .inr ?_, .inl (.reading (h.keepLeft r) hg hrem hk)⟩
      simp only [potential, hrem]
      omega
    · have hlen := bytesToKey_length hk hne
      have happ := bytesToKey_append hk hne bs.flatten
      rw [← h.pasteActive] at happ
      have htwin : Twin r' (r' ++ bs.flatten)
          (LineSession.turn ⟨t₁, .keys .readLine pasted r, ls, ps₁⟩ .readLine pasted k r')
          (LineSession.turn ⟨t₂, .keys .readLine pasted (r ++ bs.flatten), ls, ps₂⟩ .readLine
            pasted k (r' ++ bs.flatten)) := LineSession.turn_twin h hne
      refine ⟨_, hn, ?_, .inr ⟨⟨_, rs, cs⟩, ?_, follows_twin htwin (hg.rest hk hne)⟩⟩
      · apply (potential_twin htwin).imp_right
        intro hle
        apply Nat.lt_of_le_of_lt hle
        simp only [potential]
        omega
      · simp only [wholeNext, happ, if_neg hne]

theorem Good.read (hg : Good r (b :: bs)) (hn : r.length + n = inBufSize) :
    Good (r ++ b.take n) (readsLeft n b bs) := by
  have hall : r ++ b.take n ++ (readsLeft n b bs).flatten = r ++ (b :: bs).flatten :=
    append_readsLeft r
  have hlen : (b.take n).length ≤ n := length_take_le _ _
  refine ⟨hall ▸ hg.clean, hall ▸ hg.short, ?_, ?_⟩
  · rw [length_append]
    omega
  intro x hx
  unfold readsLeft at hx
  split at hx
  · exact hg.reads x (mem_cons_of_mem _ hx)
  rename_i hb
  rcases List.mem_cons.mp hx with rfl | hx
  · exact hb
  · exact hg.reads x (mem_cons_of_mem _ hx)

theorem moved_reading (h : Muted t₁ t₂) (hg : Good r bs) (hr : t₁.remainder = r)
    (hk : bytesToKey r t₁.pasteActive = (runeError, r)) :
    Moved answer ⟨⟨t₁, .reading .readLine pasted, ls, ps₁⟩, bs, cs⟩
      ⟨⟨t₂, .keys .readLine pasted (r ++ bs.flatten), ls, ps₂⟩, rs, cs⟩ := by
  cases bs with
  | nil =>
    have hkey : bytesToKey (r ++ [].flatten) t₂.pasteActive = (runeError, r) := by
      rw [flatten_nil, append_nil, h.pasteActive, hk]
    have hw : wholeNext answer ⟨⟨t₂, .keys .readLine pasted (r ++ [].flatten), ls, ps₂⟩, rs, cs⟩ =
        some ⟨⟨t₂, .idle, ls ++ [([], some .eof)], ps₂⟩, rs, cs⟩ := by
      simp only [wholeNext, hkey, if_pos]
      rfl
    exact ⟨_, rfl, .inl (.inl (ended_eof ls)), .inr ⟨_, hw, follows_eof⟩⟩
  | cons b bs =>
    have hlen := length_unfinished hg.clean (by decide) hg.short hk
    obtain ⟨n, hn⟩ : ∃ n, r.length + n = inBufSize := ⟨inBufSize - r.length, by
      have hbuf : inBufSize = 256 := rfl
      omega⟩
    have hsub : inBufSize - r.length = n := by omega
    have hnpos : 0 < n := by
      have hbuf : inBufSize = 256 := rfl
      omega
    have hfits : r.length + (b.take n).length ≤ inBufSize := by
      rw [← hn]
      exact Nat.add_le_add_left (length_take_le _ _) _
    have hnext : next answer ⟨⟨t₁, .reading .readLine pasted, ls, ps₁⟩, b :: bs, cs⟩ =
        some ⟨⟨{ t₁ with remainder := r ++ b.take n }, .keys .readLine pasted (r ++ b.take n), ls,
          ps₁⟩, readsLeft n b bs, cs⟩ := by
      simp only [next, LineSession.step, hr, hsub, hfits, if_pos, map_some]
    refine ⟨_, hnext, .inr ?_, .inl ?_⟩
    · have hb := List.length_pos_iff.mpr (hg.reads b mem_cons_self)
      simp only [potential, flatten_readsLeft, flatten_cons, length_append,
        length_take, length_drop, hr]
      omega
    · rw [← append_readsLeft (n := n)]
      exact .keys (h.setLeft _) (hg.read hn)

theorem moved_completing (h : Muted t₁ t₂) (hg : Good r bs) :
    Moved answer ⟨⟨t₁, .completing .readLine pasted k r, ls, ps₁⟩, bs, cs⟩
      ⟨⟨t₂, .completing .readLine pasted k (r ++ bs.flatten), ls, ps₂⟩, rs, cs⟩ := by
  have hcall : completion t₂ k = completion t₁ k := by
    unfold completion
    rw [h.line, h.pos]
  let calls := cs ++ [completion t₁ k]
  have hcompleted := h.completed (.inl (Eq.refl k)) (fun _ => rfl) (.refl (answer calls)) fun _ =>
    rfl
  have hn : next answer ⟨⟨t₁, .completing .readLine pasted k r, ls, ps₁⟩, bs, cs⟩ =
      some ⟨LineSession.goOn ⟨t₁, .completing .readLine pasted k r, ls, ps₁⟩
        (fun _ => .keys .readLine pasted r) (t₁.completed k (answer calls)), bs, calls⟩ := rfl
  have hw : wholeNext answer
      ⟨⟨t₂, .completing .readLine pasted k (r ++ bs.flatten), ls, ps₂⟩, rs, cs⟩ =
      some ⟨LineSession.goOn ⟨t₂, .completing .readLine pasted k (r ++ bs.flatten), ls, ps₂⟩
        (fun _ => .keys .readLine pasted (r ++ bs.flatten)) (t₂.completed k (answer calls)),
        rs, calls⟩ := by
    simp only [wholeNext, hcall, calls]
  generalize t₁.completed k (answer calls) = x at hcompleted hn
  generalize t₂.completed k (answer calls) = y at hcompleted hw
  cases hcompleted with
  | none => exact ⟨_, hn, .inl (.inr rfl), .inr ⟨_, hw, .stopped (.inr rfl) (.inr rfl) rfl⟩⟩
  | some hab =>
    refine ⟨_, hn, .inr ?_, .inr ⟨_, hw, .keys hab hg⟩⟩
    simp only [potential, LineSession.goOn]
    omega

theorem Follows.moved (h : Follows f w) (hf : ¬ f.stopped) (answer : Answers) :
    Moved answer f w := by
  cases h with
  | idle h hg hr₁ hr₂ => exact moved_idle h hg hr₁ hr₂
  | keys h hg => exact moved_keys h hg
  | reading h hg hr hk => exact moved_reading h hg hr hk
  | completing h hg => exact moved_completing h hg
  | stopped h => exact absurd h hf

theorem Follows.lines (h : Follows f w) : f.session.lines = w.session.lines := by
  cases h with
  | stopped _ _ h => exact h
  | _ => rfl

theorem Follows.stopped_right (h : Follows f w) (hf : f.stopped) : w.stopped := by
  cases h with
  | stopped _ h => exact h
  | idle | keys | reading | completing =>
    rcases hf with he | hp
    · exact .inl he
    · cases hp

theorem run_stopped (h : stopped f) (n : Nat) : f.run answer n = f := by
  cases n with
  | zero => rfl
  | succ n =>
    rw [run]
    split
    · rfl
    rename_i he
    have hp : f.session.pc = .panicked := h.resolve_left he
    have hn : f.next answer = none := by
      rw [next, hp]
    rw [hn]

theorem Follows.run (h : Follows f w) (answer : Answers) (n : Nat) :
    (∃ m, Follows (f.run answer n) (w.wholeRun answer m)) ∧
      (f.potential < n → (f.run answer n).stopped) := by
  induction n generalizing f w with
  | zero => exact ⟨⟨0, h⟩, fun hn => absurd hn (Nat.not_lt_zero _)⟩
  | succ n ih =>
    by_cases hf : f.stopped
    · rw [run_stopped hf]
      exact ⟨⟨0, h⟩, fun _ => hf⟩
    obtain ⟨f', hnext, hless, hw⟩ := h.moved hf answer
    have he : ¬ f.ended = true := fun he => hf (.inl he)
    have hrun : f.run answer (n + 1) = f'.run answer n := by
      rw [Feed.run, if_neg he, hnext]
    rw [hrun]
    constructor
    · rcases hw with hw | ⟨w', hw', hfollows⟩
      · exact (ih hw).1
      obtain ⟨m, hm⟩ := (ih hfollows).1
      have hew : ¬ w.ended = true := by
        unfold ended at he ⊢
        rwa [← h.lines]
      refine ⟨m + 1, ?_⟩
      rw [wholeRun, if_neg hew, hw']
      exact hm
    · intro hn
      rcases hless with hs | hlt
      · rw [run_stopped hs]
        exact hs
      rcases hw with hw | ⟨w', _, hfollows⟩
      · exact (ih hw).2 (by omega)
      · exact (ih hfollows).2 (by omega)

def whole (t : Terminal) (input : Bytes) : Feed := start { t with remainder := input } []

theorem start_follows {t : Terminal} (ht : t.remainder = []) (hclean : Utf8.Clean bs.flatten)
    (hshort : ShortEscapes bs.flatten) (hne : ∀ b ∈ bs, b ≠ []) :
    Follows (start t bs) (whole t bs.flatten) :=
  .idle (.mk t t.c t.outBuf bs.flatten) ⟨hclean, hshort, Nat.zero_le _, hne⟩ ht rfl

/-- With enough steps every way to split the input comes to the end of the session that has all of
it. -/
theorem run_eq_wholeRun (answer : Answers) {t : Terminal} (ht : t.remainder = [])
    (hclean : Utf8.Clean bs.flatten) (hshort : ShortEscapes bs.flatten) (hne : ∀ b ∈ bs, b ≠ [])
    (hn : (start t bs).potential < n) :
    ((start t bs).run answer n).stopped ∧ ∃ m, ((whole t bs.flatten).wholeRun answer m).stopped ∧
      ((start t bs).run answer n).session.lines =
        ((whole t bs.flatten).wholeRun answer m).session.lines := by
  obtain ⟨⟨m, hm⟩, hstop⟩ := (start_follows ht hclean hshort hne).run answer n
  exact ⟨hstop hn, m, hm.stopped_right (hstop hn), hm.lines⟩

/-- What the calls of `ReadLine` return up to the first end of the file does not depend on how the
input is split into reads. -/
theorem readLine_chunks (answer : Answers) {t : Terminal} (ht : t.remainder = [])
    {input : Bytes} (hclean : Utf8.Clean input) (hshort : ShortEscapes input)
    {bs₁ bs₂ : List Bytes} (h₁ : bs₁.flatten = input) (h₂ : bs₂.flatten = input)
    (hne₁ : ∀ b ∈ bs₁, b ≠ []) (hne₂ : ∀ b ∈ bs₂, b ≠ []) :
    ∃ n, ∀ n₁ n₂, n ≤ n₁ → n ≤ n₂ →
      ((start t bs₁).run answer n₁).stopped ∧ ((start t bs₂).run answer n₂).stopped ∧
      ((start t bs₁).run answer n₁).session.lines =
        ((start t bs₂).run answer n₂).session.lines := by
  refine ⟨(start t bs₁).potential + (start t bs₂).potential + 1, ?_⟩
  intro n₁ n₂ hn₁ hn₂
  obtain ⟨hs₁, m₁, hw₁, hl₁⟩ := run_eq_wholeRun answer ht (h₁ ▸ hclean) (h₁ ▸ hshort)
    hne₁ (show (start t bs₁).potential < n₁ by omega)
  obtain ⟨hs₂, m₂, hw₂, hl₂⟩ := run_eq_wholeRun answer ht (h₂ ▸ hclean) (h₂ ▸ hshort)
    hne₂ (show (start t bs₂).potential < n₂ by omega)
  rw [h₁] at hw₁ hl₁
  rw [h₂] at hw₂ hl₂
  refine ⟨hs₁, hs₂, ?_⟩
  rw [hl₁, hl₂, wholeRun_eq hw₁ hw₂]

theorem readLine_chunks_arrow :
    let t := newTerminal ⟨[], []⟩ [62, 32] false
    let input : Bytes := [0xc3, 0xa9, 27, 91, 68, 98, 13, 99]
    ∃ n, ∀ n₁ n₂, n ≤ n₁ → n ≤ n₂ →
      ((start t [[0xc3], [0xa9, 27, 91], [68, 98, 13, 99]]).run (fun _ => none) n₁).stopped ∧
      ((start t (input.map fun b => [b])).run (fun _ => none) n₂).stopped ∧
      ((start t [[0xc3], [0xa9, 27, 91], [68, 98, 13, 99]]).run (fun _ => none) n₁).session.lines =
        ((start t (input.map fun b => [b])).run (fun _ => none) n₂).session.lines :=
  readLine_chunks (fun _ => none) rfl (by decide +kernel) (by decide +kernel) rfl rfl (by decide)
    (by decide)

end Feed

end XCryptoSsh
