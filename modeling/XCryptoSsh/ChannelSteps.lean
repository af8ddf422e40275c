import XCryptoSsh.Channel
import XCryptoSsh.Machine

namespace XCryptoSsh
set_option autoImplicit true

open Go (Bytes u32 subU32)
open Machine (exec exec_cons_some)

theorem u32_le (n : Nat) : u32 n ≤ n := Nat.mod_le _ _

theorem subU32_add_le (h : b ≤ a) : subU32 a b + b ≤ a := by
  have hm : subU32 a b = (a - b) % 2 ^ 32 := by
    unfold subU32
    rw [show a + 2 ^ 32 - b = a - b + 2 ^ 32 by omega, Nat.add_mod_right]
  have := Nat.mod_le (a - b) (2 ^ 32)
  omega

theorem minUint32_le_left (a b : Nat) : minUint32 a b ≤ a := by
  unfold minUint32
  split <;> omega

theorem minUint32_le_right (a b : Nat) : minUint32 a b ≤ b := by
  have := u32_le b
  unfold minUint32
  split <;> omega

namespace Window

theorem add_of_lt {w : Window} (h : w.win + n < 2 ^ 32) :
    w.add n = (true, { w with win := w.win + n }) := by
  unfold add
  rw [Go.u32_of_lt h]
  split
  · rename_i hn
    subst hn
    rfl
  · rw [if_neg (by omega)]

theorem win_add_le (w : Window) (n : Nat) : (w.add n).2.win ≤ w.win + n := by
  unfold add
  split
  · exact Nat.le_add_right _ _
  split
  · exact Nat.le_add_right _ _
  · exact u32_le _

theorem closed_add (w : Window) (n : Nat) : (w.add n).2.closed = w.closed := by
  unfold add
  split
  · rfl
  · split <;> rfl

inductive Reserves (w : Window) (stop : Bool) (n : Nat) : Nat × Option Err × Window → Prop where
  | stopped (hs : stop = true) : Reserves w stop n (0, some .eof, w)
  | lost (hs : stop = false) (hc : w.closed = true) (hw : left ≤ w.win) :
      Reserves w stop n (k, some .eof, ⟨left, true⟩)
  | taken (hs : stop = false) (hc : w.closed = false) (hw : left + k ≤ w.win) (hk : k ≤ n) :
      Reserves w stop n (k, none, ⟨left, false⟩)

theorem reserve_cases {w : Window} (h : w.reserve stop n = some r) : Reserves w stop n r := by
  unfold reserve at h
  split at h
  · rename_i hs
    cases h
    exact .stopped hs
  rename_i hs
  split at h
  · cases h
  have hle : (if w.win < n then w.win else n) ≤ w.win := by split <;> omega
  have hn : (if w.win < n then w.win else n) ≤ n := by split <;> omega
  have hw := subU32_add_le hle
  have hs' : stop = false := by simpa using hs
  cases h
  cases hc : w.closed with
  | true => exact .lost hs' hc (Nat.le_of_add_right_le hw)
  | false => exact .taken hs' hc hw hn

end Window

/-- Without the timer, the time and the stack, which its text also tells. -/
def newErrTimeout (msg : String) : Err := .net ("timeout:" ++ msg) true

namespace Buffer

@[simp] theorem unread_newBuffer : newBuffer.unread = [] := rfl

@[simp] theorem unread_write (b : Buffer) (buf : Bytes) :
    (b.write buf).unread = b.unread ++ buf := by
  simp [unread, write]

@[simp] theorem unread_eof (b : Buffer) : b.eof.unread = b.unread := rfl

theorem copyOut_spec (n : Nat) (head : Bytes) (es : List Bytes) :
    (copyOut n head es).1 = (head ++ es.flatten).take n ∧
      (copyOut n head es).2.1 ++ (copyOut n head es).2.2.flatten = (head ++ es.flatten).drop n := by
  induction es generalizing n head with
  | nil => simp [copyOut]
  | cons e es ih =>
    unfold copyOut
    split
    · rename_i h
      simp [List.take_append, List.drop_append, Nat.sub_eq_zero_of_le h]
    rename_i h
    obtain ⟨h₁, h₂⟩ := ih (n - head.length) e
    have hn : head.length + (n - head.length) = n := by omega
    dsimp only
    rw [h₁, h₂, List.flatten_cons, ← List.take_length_add_append, ← List.drop_length_add_append,
      hn]
    exact ⟨rfl, rfl⟩

/-- `Read` with what the idle timer tells it, an empty text when there was no timeout; `none` while
the reader waits. -/
def readTimed (b : Buffer) (n : Nat) (timedOut : String) : Option (Bytes × Option Err × Buffer) :=
  if n = 0 then some ([], none, b)
  else
    let r := copyOut n b.head b.next
    let b' := { b with head := r.2.1, next := r.2.2 }
    if r.1 ≠ [] then some (r.1, none, b')
    else if b.closed then some ([], some .eof, b')
    else if timedOut ≠ "" then some ([], some (newErrTimeout timedOut), b')
    else none

theorem read_eq_readTimed (b : Buffer) (n : Nat) : b.read n = b.readTimed n "" := by
  simp [read, readTimed]

theorem readTimed_spec {b : Buffer} (h : b.readTimed n timedOut = some (taken, err, b')) :
    taken = b.unread.take n ∧ b.unread = taken ++ b'.unread ∧ b'.closed = b.closed ∧
      (err = none → n = 0 ∨ taken ≠ []) ∧ ∀ e, err = some e → b.unread = [] ∧
        (b.closed = true ∧ e = .eof ∨ b.closed = false ∧ timedOut ≠ "" ∧
          e = newErrTimeout timedOut) := by
  obtain ⟨h₁, h₂⟩ := copyOut_spec n b.head b.next
  have hsplit : b.unread = (copyOut n b.head b.next).1 ++
      ((copyOut n b.head b.next).2.1 ++ (copyOut n b.head b.next).2.2.flatten) := by
    rw [h₁, h₂, List.take_append_drop]
    rfl
  unfold readTimed at h
  split at h
  · rename_i hn
    cases h
    exact ⟨by rw [hn, List.take_zero], rfl, rfl, fun _ => .inl hn, by rintro e ⟨⟩⟩
  rename_i hn
  dsimp only at h
  split at h
  · rename_i ht
    cases h
    exact ⟨h₁, hsplit, rfl, fun _ => .inr ht, by rintro e ⟨⟩⟩
  rename_i ht
  rw [ne_eq, Decidable.not_not] at ht
  have hu : b.unread = [] := (List.take_eq_nil_iff.mp (h₁.symm.trans ht)).resolve_left hn
  rw [ht] at h₁ hsplit
  split at h
  · rename_i hc
    cases h
    exact ⟨h₁, hsplit, rfl, by rintro ⟨⟩, by rintro e ⟨⟩; exact ⟨hu, .inl ⟨hc, rfl⟩⟩⟩
  rename_i hc
  split at h
  · rename_i hw
    cases h
    refine ⟨h₁, hsplit, rfl, by rintro ⟨⟩, ?_⟩
    rintro e ⟨⟩
    exact ⟨hu, .inr ⟨eq_false_of_ne_true hc, hw, rfl⟩⟩
  · cases h

theorem isSome_readTimed (b : Buffer) (n : Nat) (timedOut : String) :
    (b.readTimed n timedOut).isSome ↔
      n = 0 ∨ b.unread ≠ [] ∨ b.closed = true ∨ timedOut ≠ "" := by
  have htaken : (copyOut n b.head b.next).1 = b.unread.take n := (copyOut_spec ..).1
  unfold readTimed
  by_cases hn : n = 0
  · simp [hn]
  by_cases hu : b.unread = []
  · by_cases hc : b.closed = true
    · simp [hn, htaken, hu, hc]
    · by_cases ht : timedOut = "" <;> simp [hn, htaken, hu, hc, ht]
  · simp [hn, htaken, hu]

theorem read_spec {b : Buffer} (h : b.read n = some (taken, err, b')) :
    b.unread = taken ++ b'.unread ∧ b'.closed = b.closed ∧
      (err ≠ none → b.closed = true ∧ b.unread = []) := by
  rw [read_eq_readTimed] at h
  obtain ⟨-, hu, hc, -, he⟩ := readTimed_spec h
  refine ⟨hu, hc, ?_⟩
  intro hne
  obtain ⟨e, rfl⟩ := Option.ne_none_iff_exists'.mp hne
  obtain ⟨hu, ⟨hc, -⟩ | ⟨-, hw, -⟩⟩ := he e rfl
  · exact ⟨hc, hu⟩
  · exact absurd rfl hw

inductive Act where
  | write (buf : Bytes)
  | eof
  | read (n : Nat) (timedOut : String)
  deriving DecidableEq, Repr

def Act.bytes : Act → Bytes
  | .write buf => buf
  | _ => []

/-- A call, with all the bytes that `Read` has returned. -/
def step (s : Buffer × Bytes) : Act → Option (Buffer × Bytes)
  | .write buf => some (s.1.write buf, s.2)
  | .eof => some (s.1.eof, s.2)
  | .read n timedOut => (s.1.readTimed n timedOut).map fun r => (r.2.2, s.2 ++ r.1)

theorem step_queue (h : step s a = some s') :
    s'.2 ++ s'.1.unread = s.2 ++ s.1.unread ++ a.bytes ∧
      (s'.1.closed = true ↔ s.1.closed = true ∨ a = .eof) := by
  cases a with
  | write buf =>
    cases h
    exact ⟨by simp [Act.bytes], by simp [write]⟩
  | eof =>
    cases h
    exact ⟨by simp [Act.bytes], by simp [eof]⟩
  | read n timedOut =>
    obtain ⟨⟨taken, err, b'⟩, hr, rfl⟩ := Option.map_eq_some_iff.mp h
    obtain ⟨-, hu, hc, -⟩ := readTimed_spec hr
    simp [Act.bytes, hu, hc]

theorem exec_queue (h : exec step s as = some s') :
    s'.2 ++ s'.1.unread = s.2 ++ s.1.unread ++ (as.map Act.bytes).flatten ∧
      (s'.1.closed = true ↔ s.1.closed = true ∨ .eof ∈ as) := by
  induction as generalizing s with
  | nil =>
    cases h
    simp
  | cons a as ih =>
    obtain ⟨t, ht, h⟩ := exec_cons_some h
    obtain ⟨hu, hc⟩ := step_queue ht
    obtain ⟨hu', hc'⟩ := ih h
    refine ⟨?_, ?_⟩
    · rw [hu', hu, List.map_cons, List.flatten_cons, List.append_assoc]
    · rw [hc', hc, List.mem_cons, or_assoc, @eq_comm _ Act.eof]

/-- A buffer is a queue of bytes: a `Read` takes as many as there are, or has the error of an empty
buffer; it waits only for bytes, the end or a timeout. -/
theorem refines_queue (h : exec step (newBuffer, []) l = some s) :
    s.2 ++ s.1.unread = (l.map Act.bytes).flatten ∧ (s.1.closed = true ↔ .eof ∈ l) ∧
      ∀ n timedOut, ((s.1.readTimed n timedOut).isSome ↔
        n = 0 ∨ s.1.unread ≠ [] ∨ s.1.closed = true ∨ timedOut ≠ "") ∧
      ∀ taken err b', s.1.readTimed n timedOut = some (taken, err, b') →
        taken = s.1.unread.take n ∧ (0 < n → 0 < taken.length ∨ err ≠ none) ∧
        (s.1.unread ≠ [] → taken.length = min n s.1.unread.length) ∧
        (err = some .eof → s.1.closed = true ∧ s.1.unread = []) ∧
        ∀ e, err = some e → e.isTimeout = true → s.1.closed = false ∧ s.1.unread = [] := by
  obtain ⟨hu, hc⟩ := exec_queue h
  refine ⟨hu, by simpa [newBuffer] using hc, fun n timedOut => ⟨s.1.isSome_readTimed .., ?_⟩⟩
  intro taken err b' hr
  obtain ⟨ht, -, -, hnone, he⟩ := readTimed_spec hr
  refine ⟨ht, ?_, fun _ => by rw [ht, List.length_take], ?_, ?_⟩
  · intro hn
    by_cases herr : err = none
    · exact .inl (List.length_pos_iff.mpr ((hnone herr).resolve_left (by omega)))
    · exact .inr herr
  · intro herr
    obtain ⟨hu, ⟨hc, -⟩ | ⟨-, -, he⟩⟩ := he _ herr
    · exact ⟨hc, hu⟩
    · cases he
  · intro e herr hto
    obtain ⟨hu, ⟨-, rfl⟩ | ⟨hc, -⟩⟩ := he e herr
    · cases hto
    · exact ⟨hc, hu⟩

theorem refines_queue_split : ∃ s, exec step (newBuffer, [])
    [.write [1, 2, 3], .write [], .read 2 "", .eof] = some s ∧ s.2 = [1, 2] ∧
      s.2 ++ s.1.unread = [1, 2, 3] ∧ s.1.closed = true ∧ (s.1.readTimed 4 "").isSome := by
  refine ⟨_, rfl, rfl, ?_⟩
  obtain ⟨hu, hc, hr⟩ := refines_queue (l := [.write [1, 2, 3], .write [], .read 2 "", .eof]) rfl
  exact ⟨hu, hc.mpr (by decide), (hr 4 "").1.mpr (.inr (.inl (by decide)))⟩

end Buffer

namespace Channel

def unread (c : Channel) : Nat := c.pending.unread.length + c.extPending.unread.length

theorem writePacket_of_closed {c : Channel} (h : c.sentClose = true) (m : ChanMsg) :
    c.writePacket m = .error .eof := if_pos h

theorem writePacket_of_open {c : Channel} (h : c.sentClose = false) (hm : m ≠ .close) :
    c.writePacket m = .ok c := by
  unfold writePacket
  rw [if_neg (by simp [h]), beq_eq_false_iff_ne.mpr hm, ← h]

theorem writePacket_close {c : Channel} (h : c.sentClose = false) :
    c.writePacket .close = .ok { c with sentClose := true } := if_neg (by simp [h])

theorem dataMsg_ne_close (code : Nat) (todo : Bytes) : dataMsg code todo ≠ .close := by
  intro h
  cases h

theorem unread_setStream {c : Channel} (hb : c.stream code = some b)
    (h : b.unread = taken ++ b'.unread) :
    (c.setStream b' code).unread + taken.length = c.unread := by
  have hl := congrArg List.length h
  rw [List.length_append] at hl
  unfold stream at hb
  unfold unread setStream
  split at hb
  · rename_i hc
    cases hb
    simp only [hc, if_true, Nat.one_ne_zero, if_false]
    omega
  rename_i hc
  split at hb
  · rename_i hz
    cases hb
    simp only [hz, if_true, Nat.zero_ne_one, if_false]
    omega
  · cases hb

theorem storeData_eq (c : Channel) (extended : Nat) (payload : Bytes) :
    c.storeData extended payload =
      { c with pending := if extended = 0 then c.pending.write payload else c.pending,
               extPending := if extended = 1 then c.extPending.write payload else
                 c.extPending } := by
  unfold storeData
  split
  · rename_i h
    simp [h]
  rename_i h
  split
  · rename_i h'
    simp [Nat.ne_of_gt h']
  · rename_i h'
    simp [show extended = 0 by omega]

end Channel

def Pc.requesting : Pc → Bool
  | .sendRequest .. | .lockRequest .. | .transmit .. | .awaitReply | .ackRequest _ => true
  | _ => false

def ChanMsg.requesting : ChanMsg → Bool
  | .request .. | .success | .failure => true
  | _ => false

open Channel in
inductive Runs (c : Channel) : Pc → Ran → Prop where
  | writeRefused (h : c.decided = false ∨ c.sentEOF = true) :
      Runs c (.write code data) (c.ret (.wrote code 0 (some e)))
  | writeNothing : Runs c (.write code []) (c.ret (.wrote code 0 none))
  | write (he : c.sentEOF = false) (hd : data ≠ []) :
      Runs c (.write code data) (c.goto (.reserve code 0 data))
  | reserveStopped (hs : c.idleStop = true) :
      Runs c (.reserve code n data) (c.ret (.wrote code n (some .eof)))
  | reserveLost (hc : c.remoteWin.closed = true) (hw : left ≤ c.remoteWin.win) :
      Runs c (.reserve code n data)
        (ret { c with remoteWin := ⟨left, true⟩ } (.wrote code n (some .eof)))
  | reserve (hs : c.idleStop = false) (hc : c.remoteWin.closed = false)
      (hw : left + space ≤ c.remoteWin.win)
      (hk : space ≤ minUint32 c.maxRemotePayload data.length) :
      Runs c (.reserve code n data) (goto { c with remoteWin := ⟨left, false⟩ }
        (.send code n (data.take space) (data.drop space)))
  | sendRefused (h : c.sentClose = true) :
      Runs c (.send code n todo data) (c.ret (.wrote code n (some .eof)))
  | sendLast (h : c.sentClose = false) : Runs c (.send code n todo [])
      { c.ret (.wrote code (n + todo.length) none) with effect := some (.send (dataMsg code todo)) }
  | send (h : c.sentClose = false) (hd : data ≠ []) : Runs c (.send code n todo data)
      { c.goto (.reserve code (n + todo.length) data) with
        effect := some (.send (dataMsg code todo)) }
  | readRefused (he : e ≠ .eof) : Runs c (.read code n) (c.ret (.read code [] (some e)))
  | readNothing (hb : c.stream code = some b) (hr : b.read n = some ([], err, b')) :
      Runs c (.read code n) ((c.setStream b' code).ret (.read code [] err))
  | read (hb : c.stream code = some b) (hr : b.read n = some (taken, err, b')) :
      Runs c (.read code n) ((c.setStream b' code).goto (.credit code taken))
  | credit (hs : more = u32 (c.myWindow + u32 taken.length)) :
      Runs c (.credit code taken) (goto { c with myWindow := more } (.adjust code taken))
  | adjustRefused (h : c.sentClose = true) :
      Runs c (.adjust code taken) (c.ret (.read code taken none))
  | adjust (h : c.sentClose = false) : Runs c (.adjust code taken)
      { c.ret (.read code taken none) with
        effect := some (.send (.windowAdjust (u32 taken.length))) }
  | closeWriteRefused : Runs c .closeWrite (c.ret (.done e))
  | closeWrite : Runs c .closeWrite (goto { c with sentEOF := true } .sendEOF)
  | eofRefused (h : c.sentClose = true) : Runs c .sendEOF (c.ret (.done e))
  | sendEOF (h : c.sentClose = false) :
      Runs c .sendEOF { c.ret (.done none) with effect := some (.send .eof) }
  | closeAgain (h : c.hasClosed = true) : Runs c .close (c.ret (.done none))
  | close (h : c.hasClosed = false) : Runs c .close (goto { c with hasClosed := true } .stopIdle)
  | stopIdle : Runs c .stopIdle (goto { c with idleStop := true } .stopHalt)
  | stopHalt : Runs c .stopHalt (goto { c with haltStop := true } .sendClose)
  | closeRefused (h : c.decided = false ∨ c.sentClose = true) :
      Runs c .sendClose (c.ret (.done e))
  | sendClose (h : c.sentClose = false) : Runs c .sendClose
      { ret { c with sentClose := true } (.done none) with effect := some (.send .close) }
  | request (hp : pc.requesting = true) (hp' : pc'.requesting = true) :
      Runs c pc (goto { c with sentRequestMu := locked } pc')
  | requestReturn (hp : pc.requesting = true) (hq : items <:+ c.msg.items) :
      Runs c pc ⟨{ c with sentRequestMu := locked, msg := { c.msg with items := items } }, .idle,
        none, some (.answered ok err)⟩
  | requestSent (hp : pc.requesting = true) (hp' : pc' = .idle ∨ pc'.requesting = true)
      (h : c.sentClose = false) (hm : m.requesting = true)
        (ho : ∀ code d e, o ≠ some (.read code d e)) :
      Runs c pc ⟨c, pc', some (.send m), o⟩
  | ackRefused : Runs c (.ackRequest ok) (c.ret (.done e))

namespace Channel

theorem writeLoop_cases (c : Channel) (code n : Nat) (data : Bytes) :
    data = [] ∧ c.writeLoop code n data = c.ret (.wrote code n none) ∨
      data ≠ [] ∧ c.writeLoop code n data = c.goto (.reserve code n data) := by
  unfold writeLoop
  split
  · exact .inl ⟨‹_›, rfl⟩
  · exact .inr ⟨‹_›, rfl⟩

theorem sending_of_closed {c : Channel} (h : c.sentClose = true) :
    c.sending m f k = c.ret (f .eof) := by
  unfold sending
  rw [writePacket_of_closed h]

theorem sending_of_open {c : Channel} (h : c.sentClose = false) (hm : m ≠ .close) :
    c.sending m f k = { k c with effect := some (.send m) } := by
  unfold sending
  rw [writePacket_of_open h hm]

theorem sending_close {c : Channel} (h : c.sentClose = false) :
    c.sending .close f k =
      { k { c with sentClose := true } with effect := some (.send .close) } := by
  unfold sending
  rw [writePacket_close h]

theorem sending_cases {c : Channel} (hm : m ≠ .close) (h : c.sending m f k = r) :
    c.sentClose = true ∧ r = c.ret (f .eof) ∨
      c.sentClose = false ∧ r = { k c with effect := some (.send m) } := by
  cases hc : c.sentClose with
  | true => exact .inl ⟨rfl, h.symm.trans (sending_of_closed hc)⟩
  | false => exact .inr ⟨rfl, h.symm.trans (sending_of_open hc hm)⟩

theorem runs_reserve {c : Channel} (h : c.run choice (.reserve code n data) = some r) :
    Runs c (.reserve code n data) r := by
  simp only [run] at h
  split at h
  · cases h
  · rename_i hr
    cases h
    cases Window.reserve_cases hr with
    | stopped hs => exact .reserveStopped hs
    | lost hs hc hw => exact .reserveLost hc hw
  · rename_i hr
    cases h
    cases Window.reserve_cases hr with
    | taken hs hc hw hk => exact .reserve hs hc hw hk

theorem runs_send {c : Channel} (h : c.run choice (.send code n todo data) = some r) :
    Runs c (.send code n todo data) r := by
  simp only [run, Option.some.injEq] at h
  obtain ⟨hc, rfl⟩ | ⟨hc, rfl⟩ := sending_cases (dataMsg_ne_close code todo) h
  · exact .sendRefused hc
  · obtain ⟨hd, hw⟩ | ⟨hd, hw⟩ := c.writeLoop_cases code (n + todo.length) data
    · subst hd
      rw [hw]
      exact .sendLast hc
    · rw [hw]
      exact .send hc hd

theorem not_runs_idle {c : Channel} : ¬ Runs c .idle r := by
  intro h
  cases h with
  | request hp hp' => cases hp
  | requestReturn hp hq => cases hp
  | requestSent hp hp' h hm ho => cases hp

theorem runs_read {c : Channel} (h : c.run choice (.read code n) = some r) :
    Runs c (.read code n) r := by
  simp only [run] at h
  split at h
  · cases h
    exact .readRefused (by simp [errUndecided])
  split at h
  · cases h
    exact .readRefused (by simp [errUnimplemented])
  rename_i b hb
  obtain ⟨⟨taken, err, b'⟩, hr, h⟩ := Option.map_eq_some_iff.mp h
  split at h
  · rename_i ht
    subst ht
    cases h
    exact .readNothing hb hr
  · cases h
    exact .read hb hr

theorem runs_transmit {c : Channel} (h : c.run choice (.transmit name wantReply payload) = some r) :
    Runs c (.transmit name wantReply payload) r := by
  simp only [run] at h
  cases hc : c.sentClose with
  | true =>
    rw [writePacket_of_closed hc] at h
    cases h
    exact .requestReturn rfl List.suffix_rfl
  | false =>
    rw [writePacket_of_open hc (fun he => by cases he)] at h
    split at h
    · rename_i hw
      cases hw
    rename_i hw
    cases hw
    split at h
    · cases h
      exact .requestSent rfl (.inr rfl) hc rfl nofun
    · cases h
      exact .requestSent rfl (.inl rfl) hc rfl nofun

theorem runs_awaitReply {c : Channel} (h : c.run choice .awaitReply = some r) :
    Runs c .awaitReply r := by
  have heof : Runs c .awaitReply (ret { c with sentRequestMu := false }
      (.answered false (some .eof))) := .requestReturn rfl List.suffix_rfl
  cases choice with
  | muxHalt =>
    cases h
    exact heof
  | halt =>
    simp only [run, Option.ite_none_right_eq_some, Option.some.injEq] at h
    exact h.2 ▸ heof
  | comm =>
    simp only [run] at h
    split at h
    · rename_i m ms hm
      cases h
      have hs : ms <:+ c.msg.items := hm ▸ List.suffix_cons m ms
      cases m <;> exact .requestReturn rfl hs
    · simp only [Option.ite_none_right_eq_some, Option.some.injEq] at h
      exact h.2 ▸ heof

theorem run_cases {c : Channel} (h : c.run choice pc = some r) : Runs c pc r := by
  cases pc with
  | idle => cases h
  | write code data =>
    simp only [run, Option.some.injEq] at h
    split at h
    · rename_i hd
      exact h ▸ .writeRefused (.inl hd)
    split at h
    · rename_i he
      exact h ▸ .writeRefused (.inr he)
    rename_i he
    obtain ⟨hd, hw⟩ | ⟨hd, hw⟩ := c.writeLoop_cases code 0 data
    · subst hd
      exact h ▸ hw ▸ .writeNothing
    · exact h ▸ hw ▸ .write (by simpa using he) hd
  | reserve code n data => exact runs_reserve h
  | send code n todo data => exact runs_send h
  | read code n => exact runs_read h
  | credit code taken =>
    cases h
    exact .credit rfl
  | adjust code taken =>
    simp only [run, Option.some.injEq] at h
    obtain ⟨hc, rfl⟩ | ⟨hc, rfl⟩ := sending_cases (fun he => by cases he) h
    · exact .adjustRefused hc
    · exact .adjust hc
  | closeWrite =>
    simp only [run, Option.some.injEq] at h
    split at h
    · exact h ▸ .closeWriteRefused
    · exact h ▸ .closeWrite
  | sendEOF =>
    simp only [run, Option.some.injEq] at h
    obtain ⟨hc, rfl⟩ | ⟨hc, rfl⟩ := sending_cases (fun he => by cases he) h
    · exact .eofRefused hc
    · exact .sendEOF hc
  | close =>
    simp only [run, Option.some.injEq] at h
    split at h
    · rename_i hc
      exact h ▸ .closeAgain hc
    · rename_i hc
      exact h ▸ .close (by simpa using hc)
  | stopIdle =>
    cases h
    exact .stopIdle
  | stopHalt =>
    cases h
    exact .stopHalt
  | sendClose =>
    simp only [run, Option.some.injEq] at h
    split at h
    · rename_i hd
      exact h ▸ .closeRefused (.inl hd)
    cases hc : c.sentClose with
    | true =>
      rw [sending_of_closed hc] at h
      exact h ▸ .closeRefused (.inr hc)
    | false =>
      rw [sending_close hc] at h
      exact h ▸ .sendClose hc
  | sendRequest name wantReply payload =>
    simp only [run, Option.some.injEq] at h
    split at h
    · exact h ▸ .requestReturn rfl List.suffix_rfl
    split at h
    · exact h ▸ .request rfl rfl
    · exact h ▸ .request rfl rfl
  | lockRequest name payload =>
    simp only [run] at h
    split at h
    · cases h
    · cases h
      exact .request rfl rfl
  | transmit name wantReply payload => exact runs_transmit h
  | awaitReply => exact runs_awaitReply h
  | ackRequest ok =>
    simp only [run, Option.some.injEq] at h
    split at h
    · exact h ▸ .ackRefused
    obtain ⟨hc, rfl⟩ | ⟨hc, rfl⟩ := sending_cases (by cases ok <;> exact nofun) h
    · exact .ackRefused
    · refine .requestSent rfl (.inl rfl) hc ?_ nofun
      cases ok <;> rfl

end Channel

def Op.Faults (c : Channel) (choice : Choice) (f : Fault) : Op → Prop
  | .fail e => f = .err e
  | .debit _ length payload =>
    length ≠ 0 ∧
      (c.maxIncomingPayload < length ∧ f = .err errPayloadSize ∨
        length ≠ u32 payload.length ∧ f = .err errPacketLength ∨
        c.myWindow < length ∧ f = .err errWroteTooMuch)
  | .closeMsg => c.msg.closed = true ∧ f = .panic "close of closed channel"
  | .closeRequests => c.incomingRequests.closed = true ∧ f = .panic "close of closed channel"
  | .respond =>
    c.direction = .inbound ∧ f = .err errInbound ∨ c.decided = true ∧ f = .err errDuplicate
  | .confirm _ _ n => (n < minPacketLength ∨ n > 2 ^ 31) ∧ f = .err (errMaxPacketSize n)
  | .addWindow n => (c.remoteWin.add n).1 = false ∧ f = .err (errWindowUpdate n)
  | .pushMsg _ =>
    (c.haltStop = true ∨ choice = .muxHalt) ∧ f = .err .eof ∨
      c.msg.closed = true ∧ f = .panic "send on closed channel"
  | .pushRequest _ =>
    (c.haltStop = true ∨ choice = .muxHalt) ∧ f = .err .eof ∨
      c.incomingRequests.closed = true ∧ f = .panic "send on closed channel"
  | _ => False

open Channel in
inductive Performs (c : Channel) (choice : Choice) : Op → Performed → Prop where
  | fault (h : op.Faults c choice f) : Performs c choice op (c.fault f)
  | debitNothing : Performs c choice (.debit extended 0 payload) c.step
  | debit (hm : length ≤ c.maxIncomingPayload) (hl : length = u32 payload.length)
      (hw : length ≤ c.myWindow) (hs : left = subU32 c.myWindow length) :
      Performs c choice (.debit extended length payload)
        ⟨{ c with myWindow := left }, none, [.store (extended.getD 0) payload]⟩
  | store : Performs c choice (.store extended payload) (c.storeData extended payload).step
  | closeSkipped (h : c.sentClose = true) : Performs c choice .sendClose c.step
  | sendClose (h : c.sentClose = false) :
      Performs c choice .sendClose ⟨{ c with sentClose := true }, some (.send .close), []⟩
  | remove : Performs c choice .remove ⟨c, some (.remove c.localId), []⟩
  | eofPending : Performs c choice .eofPending (step { c with pending := c.pending.eof })
  | eofExtPending : Performs c choice .eofExtPending
      (step { c with extPending := c.extPending.eof })
  | closeMsg (h : c.msg.closed = false) :
      Performs c choice .closeMsg (step { c with msg.closed := true })
  | closeRequests (h : c.incomingRequests.closed = false) : Performs c choice .closeRequests
      (step { c with incomingRequests.closed := true })
  | markSentClose : Performs c choice .markSentClose (step { c with sentClose := true })
  | closeWin : Performs c choice .closeWin (step { c with remoteWin := c.remoteWin.close })
  | stopHalt : Performs c choice .stopHalt (step { c with haltStop := true })
  | stopIdle : Performs c choice .stopIdle (step { c with idleStop := true })
  | respond (h : c.direction = .outbound) (hd : c.decided = false) :
      Performs c choice .respond (step { c with decided := true })
  | confirm (hl : minPacketLength ≤ n) (hu : n ≤ 2 ^ 31) : Performs c choice (.confirm i w n)
      (step { c with remoteId := i, maxRemotePayload := n, remoteWin := (c.remoteWin.add w).2 })
  | addWindow (h : (c.remoteWin.add n).1 = true) :
      Performs c choice (.addWindow n) (step { c with remoteWin := (c.remoteWin.add n).2 })
  | pushMsg (hc : c.msg.closed = false) (hl : c.msg.items.length < chanSize) :
      Performs c choice (.pushMsg m) (step { c with msg.items := c.msg.items ++ [m] })
  | pushRequest (hc : c.incomingRequests.closed = false)
      (hl : c.incomingRequests.items.length < chanSize) : Performs c choice (.pushRequest r)
      (step { c with incomingRequests.items := c.incomingRequests.items ++ [r] })

namespace Channel

theorem performs_debit (c : Channel) (choice : Choice) (extended : Option Nat) (length : Nat)
    (payload : Bytes) :
    Performs c choice (.debit extended length payload) (c.debit extended length payload) := by
  unfold debit
  split
  · rename_i h
    subst h
    exact .debitNothing
  rename_i h₀
  split
  · rename_i hm
    exact .fault ⟨h₀, .inl ⟨hm, rfl⟩⟩
  rename_i hm
  split
  · rename_i hl
    exact .fault ⟨h₀, .inr (.inl ⟨hl, rfl⟩)⟩
  rename_i hl
  split
  · rename_i hw
    exact .fault ⟨h₀, .inr (.inr ⟨hw, rfl⟩)⟩
  · rename_i hw
    exact .debit (Nat.le_of_not_lt hm) (Decidable.not_not.mp hl) (Nat.le_of_not_lt hw) rfl

theorem performs_respond (c : Channel) (choice : Choice) :
    Performs c choice .respond c.responseMessageReceived := by
  unfold responseMessageReceived
  split
  · rename_i h
    exact .fault (.inl ⟨h, rfl⟩)
  rename_i h
  split
  · rename_i hd
    exact .fault (.inr ⟨hd, rfl⟩)
  rename_i hd
  have ho : c.direction = .outbound := by
    cases hdir : c.direction with
    | inbound => exact absurd hdir h
    | outbound => rfl
  exact .respond ho (by simpa using hd)

theorem performs_confirm (c : Channel) (choice : Choice) (i w n : Nat) :
    Performs c choice (.confirm i w n) (c.confirm i w n) := by
  unfold confirm
  split
  · rename_i h
    exact .fault ⟨h, rfl⟩
  rename_i h
  rw [not_or, Nat.not_lt, Nat.not_lt] at h
  exact .confirm h.1 h.2

theorem performs_addWindow (c : Channel) (choice : Choice) (n : Nat) :
    Performs c choice (.addWindow n) (c.addWindow n) := by
  unfold addWindow
  dsimp only
  split
  · rename_i h
    exact .addWindow h
  · rename_i h
    exact .fault ⟨by simpa using h, rfl⟩

theorem selectSend_cases {c : Channel} (h : c.selectSend choice q x store = some p) :
    (∃ f, p = c.fault f ∧ ((c.haltStop = true ∨ choice = .muxHalt) ∧ f = .err .eof ∨
      q.closed = true ∧ f = .panic "send on closed channel")) ∨
    q.closed = false ∧ q.items.length < chanSize ∧
      p = (store { q with items := q.items ++ [x] }).step := by
  cases choice with
  | muxHalt =>
    cases h
    exact .inl ⟨_, rfl, .inl ⟨.inr rfl, rfl⟩⟩
  | halt =>
    simp only [selectSend, Option.ite_none_right_eq_some, Option.some.injEq] at h
    exact .inl ⟨_, h.2.symm, .inl ⟨.inl h.1, rfl⟩⟩
  | comm =>
    simp only [selectSend, Queue.push] at h
    cases hc : q.closed with
    | true =>
      simp only [hc, if_true, Option.some.injEq] at h
      exact .inl ⟨_, h.symm, .inr ⟨rfl, rfl⟩⟩
    | false =>
      simp only [hc, Bool.false_eq_true, if_false] at h
      by_cases hl : q.items.length < chanSize
      · simp only [hl, if_true, Option.some.injEq] at h
        exact .inr ⟨rfl, hl, h.symm⟩
      · simp only [hl, if_false] at h
        cases h

theorem closing_cases (c : Channel) (q : Queue α) (store : Queue α → Channel) :
    q.closed = true ∧ c.closing q store = c.fault (.panic "close of closed channel") ∨
      q.closed = false ∧ c.closing q store = (store { q with closed := true }).step := by
  unfold closing Queue.close
  cases hc : q.closed with
  | true => exact .inl ⟨rfl, rfl⟩
  | false => exact .inr ⟨rfl, rfl⟩

theorem perform_cases {c : Channel} (h : c.perform choice op = some p) :
    Performs c choice op p := by
  cases op with
  | fail e =>
    cases h
    exact .fault rfl
  | debit extended length payload =>
    cases h
    exact performs_debit c choice extended length payload
  | store extended payload =>
    cases h
    exact .store
  | sendClose =>
    simp only [perform, Option.some.injEq] at h
    cases hc : c.sentClose with
    | true =>
      rw [writePacket_of_closed hc] at h
      exact h ▸ .closeSkipped hc
    | false =>
      rw [writePacket_close hc] at h
      exact h ▸ .sendClose hc
  | remove =>
    cases h
    exact .remove
  | eofPending =>
    cases h
    exact .eofPending
  | eofExtPending =>
    cases h
    exact .eofExtPending
  | closeMsg =>
    simp only [perform, Option.some.injEq] at h
    obtain ⟨hc, hq⟩ | ⟨hc, hq⟩ := c.closing_cases c.msg fun q => { c with msg := q }
    · exact h ▸ hq ▸ .fault ⟨hc, rfl⟩
    · exact h ▸ hq ▸ .closeMsg hc
  | closeRequests =>
    simp only [perform, Option.some.injEq] at h
    obtain ⟨hc, hq⟩ | ⟨hc, hq⟩ :=
      c.closing_cases c.incomingRequests fun q => { c with incomingRequests := q }
    · exact h ▸ hq ▸ .fault ⟨hc, rfl⟩
    · exact h ▸ hq ▸ .closeRequests hc
  | markSentClose =>
    cases h
    exact .markSentClose
  | closeWin =>
    cases h
    exact .closeWin
  | stopHalt =>
    cases h
    exact .stopHalt
  | stopIdle =>
    cases h
    exact .stopIdle
  | respond =>
    cases h
    exact performs_respond c choice
  | confirm i w n =>
    cases h
    exact performs_confirm c choice i w n
  | addWindow n =>
    cases h
    exact performs_addWindow c choice n
  | pushMsg m =>
    obtain ⟨f, rfl, hf⟩ | ⟨hc, hl, rfl⟩ := selectSend_cases h
    · exact .fault hf
    · exact .pushMsg hc hl
  | pushRequest r =>
    obtain ⟨f, rfl, hf⟩ | ⟨hc, hl, rfl⟩ := selectSend_cases h
    · exact .fault hf
    · exact .pushRequest hc hl

end Channel

end XCryptoSsh
