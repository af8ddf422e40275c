import XCryptoSsh.Endpoint
import XCryptoSsh.Idle

namespace XCryptoSsh
open Channel IdleTimer
set_option autoImplicit true

open Go (Bytes)

def TimeoutInfo.message (i : TimeoutInfo) : String :=
  "timing out dur='" ++ toString i.dur ++ "'! since=" ++ toString i.since ++ "  dur=" ++
    toString i.udur ++ ", exceed=" ++ toString (i.since - i.udur) ++ "."

namespace IdleTimer

def timeoutError (t : IdleTimer) : Option Err :=
  t.timeOutRaised.map fun i => .net ("timeout:" ++ i.message) true

/-- What `reserveShouldReturn` returns early with; it waits for the background goroutine to come to
its `select`. -/
def reserveShouldReturn (t : IdleTimer) : Option (Option Err) :=
  if t.reqStop then some (some .eof)
  else if t.pc = .select then some t.timeoutError
  else none

def stepped (t : IdleTimer) (clock : Int) (pc : IdlePc) : IdleTimer :=
  match t.call clock 0 false pc with
  | none => t
  | some (t', _) => t'

def attemptOK (t : IdleTimer) (clock : Int) : IdleTimer :=
  t.stepped clock (if t.isOneshot then .stopOneshot else .storeOK clock)

def looped (t : IdleTimer) (clock : Int) (c : LoopCase) : IdleTimer :=
  match t.loop clock c with
  | none => t
  | some (t', _) => t'

end IdleTimer

def Window.reserveTimed (w : Window) (t : IdleTimer) (n : Nat) :
    Option (Nat × Option Err × Window) :=
  match t.reserveShouldReturn with
  | none => none
  | some (some e) => some (0, some e, w)
  | some none => w.reserve false n

namespace Channel

def reserved (c : Channel) (code n : Nat) (data : Bytes) : Nat × Option Err × Window → Ran
  | (_, some e, w) => ret { c with remoteWin := w } (.wrote code n (some e))
  | (space, none, w) =>
    goto { c with remoteWin := w } (.send code n (data.take space) (data.drop space))

def writeStep (c : Channel) (t : IdleTimer) : Pc → Option Ran
  | .reserve code n data =>
    (c.remoteWin.reserveTimed t (minUint32 c.maxRemotePayload data.length)).map
      (c.reserved code n data)
  | pc => c.run .comm pc

theorem writeStep_congr (c : Channel) {t₁ t₂ : IdleTimer}
    (h : t₁.reserveShouldReturn = t₂.reserveShouldReturn) (pc : Pc) :
    c.writeStep t₁ pc = c.writeStep t₂ pc := by
  cases pc with
  | reserve code n data => simp only [writeStep, Window.reserveTimed, h]
  | _ => rfl

end Channel

/-- A call of `WriteExtended` on a channel with its read timer: where it stands, what it has sent
and, at its end, what it returned. -/
structure WriteCall where
  ch : Channel
  timer : IdleTimer
  clock : Int
  pc : Pc
  sent : List ChanMsg
  result : Option Outcome

namespace WriteCall

/-- `read` is the begin of a `Read`, `attemptOK` is made by a `Read` that got data and for every
packet of the channel; nobody sets the timer. -/
inductive Act where
  | writer
  | perform (op : Op)
  | tick (n : Nat)
  | timer (c : LoopCase)
  | read
  | attemptOK

def write (s : WriteCall) : WriteCall :=
  match s.ch.writeStep s.timer s.pc with
  | none => s
  | some r =>
    { s with
      ch := r.ch, pc := r.pc, sent := s.sent ++ Effect.sends r.effect,
      result := s.result <|> r.returned }

def step (s : WriteCall) : Act → WriteCall
  | .writer => s.write
  | .perform op =>
    match s.ch.perform .comm op with
    | none => s
    | some p =>
      { s with ch := p.ch, timer.reqStop := s.timer.reqStop || decide (op = .stopIdle) }
  | .tick n => { s with clock := s.clock + n }
  | .timer c => { s with timer := s.timer.looped s.clock c }
  | .read => { s with timer := s.timer.stepped s.clock (.storeStart s.clock) }
  | .attemptOK => { s with timer := s.timer.attemptOK s.clock }

def run (s : WriteCall) (acts : List Act) : WriteCall := acts.foldl step s

/-- The call once it has looked at `sentEOF`. -/
def writeExtended (c : Channel) (t : IdleTimer) (clock : Int) (code : Nat) (data : Bytes) :
    WriteCall :=
  write ⟨c, t, clock, .write code data, [], none⟩

end WriteCall

namespace IdleTimer

/-- No ticker runs: no timeout is set, or it has been raised. Nothing else matters once a stop has
been asked for. -/
def Resting (t : IdleTimer) : Prop := t.reqStop = true ∨ t.pc = .select ∧ t.heartbeat = none

/-- Two resting timers that a write cannot tell apart. -/
structure Alike (t₁ t₂ : IdleTimer) : Prop where
  rest₁ : t₁.Resting
  rest₂ : t₂.Resting
  reqStop : t₁.reqStop = t₂.reqStop
  shown : t₁.reqStop = true ∨ t₁.timeoutError = t₂.timeoutError ∧ t₁.isOneshot = t₂.isOneshot

variable {t t₁ t₂ : IdleTimer}

theorem Resting.shouldReturn (h : t.Resting) :
    t.reserveShouldReturn = some (if t.reqStop then some .eof else t.timeoutError) := by
  unfold reserveShouldReturn
  rcases h with h | ⟨h, -⟩
  · simp [h]
  · cases t.reqStop <;> simp [h]

theorem Alike.shouldReturn (h : t₁.Alike t₂) :
    t₁.reserveShouldReturn = t₂.reserveShouldReturn := by
  rw [h.rest₁.shouldReturn, h.rest₂.shouldReturn, ← h.reqStop]
  rcases h.shown with hs | ⟨hr, -⟩
  · rw [hs]
    rfl
  · rw [hr]

theorem Alike.of_stopped (h₁ : t₁.reqStop = true) (h₂ : t₂.reqStop = true) : t₁.Alike t₂ :=
  ⟨.inl h₁, .inl h₂, h₁.trans h₂.symm, .inl h₁⟩

theorem reqStop_looped (t : IdleTimer) (clock : Int) (c : LoopCase) :
    (t.looped clock c).reqStop = t.reqStop := by
  unfold looped
  cases hl : t.loop clock c with
  | none => rfl
  | some r =>
    revert hl
    fun_cases loop <;> grind [changeDur, newTicker, raise]

/-- The goroutine of a resting timer takes in callbacks and does nothing else until it returns. -/
theorem Alike.looped (h : t₁.Alike t₂) (clock : Int) (c : LoopCase) :
    (t₁.looped clock c).Alike (t₂.looped clock c) := by
  cases hs : t₁.reqStop with
  | true =>
    have hs₂ : t₂.reqStop = true := h.reqStop.symm.trans hs
    exact .of_stopped (by rw [reqStop_looped, hs]) (by rw [reqStop_looped, hs₂])
  | false =>
    have hs₂ : t₂.reqStop = false := h.reqStop.symm.trans hs
    obtain ⟨hr₁, hr₂, -, hshown⟩ := h
    have hr₁ := hr₁.resolve_left (by simp [hs])
    have hr₂ := hr₂.resolve_left (by simp [hs₂])
    have hshown := hshown.resolve_left (by simp [hs])
    have hstop : t₁.reqStop = t₂.reqStop := hs.trans hs₂.symm
    cases c <;> simp only [IdleTimer.looped, IdleTimer.loop, hr₁.1, hr₂.1, hr₁.2, hr₂.2, hs, hs₂]
    case setCallback | addCallback =>
      exact ⟨.inr ⟨rfl, rfl⟩, .inr ⟨rfl, rfl⟩, rfl, .inr hshown⟩
    all_goals exact ⟨.inr hr₁, .inr hr₂, hstop, .inr hshown⟩

theorem attemptOK_eq (t : IdleTimer) (clock : Int) :
    (t.attemptOK clock).reqStop = (t.reqStop || t.isOneshot) ∧
      (t.attemptOK clock).timeoutError = t.timeoutError ∧
      (t.attemptOK clock).isOneshot = t.isOneshot ∧ (t.attemptOK clock).pc = t.pc ∧
      (t.attemptOK clock).heartbeat = t.heartbeat := by
  unfold attemptOK
  cases h : t.isOneshot with
  | false => exact ⟨(Bool.or_false _).symm, rfl, h, rfl, rfl⟩
  | true => exact ⟨(Bool.or_true _).symm, rfl, h, rfl, rfl⟩

theorem Resting.attemptOK (h : t.Resting) (clock : Int) : (t.attemptOK clock).Resting := by
  obtain ⟨hs, -, -, hpc, hbeat⟩ := attemptOK_eq t clock
  unfold Resting
  rw [hs, hpc, hbeat]
  exact h.imp_left fun h => by rw [h, Bool.true_or]

theorem Alike.attemptOK (h : t₁.Alike t₂) (clock : Int) :
    (t₁.attemptOK clock).Alike (t₂.attemptOK clock) := by
  obtain ⟨hs₁, he₁, ho₁, -⟩ := attemptOK_eq t₁ clock
  obtain ⟨hs₂, he₂, ho₂, -⟩ := attemptOK_eq t₂ clock
  obtain ⟨hr₁, hr₂, hs, hshown⟩ := h
  rcases hshown with hstop | ⟨herr, hone⟩
  · exact .of_stopped (by rw [hs₁, hstop, Bool.true_or]) (by rw [hs₂, ← hs, hstop, Bool.true_or])
  · refine ⟨hr₁.attemptOK clock, hr₂.attemptOK clock, ?_, .inr ⟨?_, ?_⟩⟩
    · rw [hs₁, hs₂, hs, hone]
    · rw [he₁, he₂, herr]
    · rw [ho₁, ho₂, hone]

theorem timeoutError_ne_eof (t : IdleTimer) : t.timeoutError ≠ some .eof := by
  simp [timeoutError]

end IdleTimer

namespace WriteCall

def Alike (s₁ s₂ : WriteCall) : Prop :=
  ∃ t, s₂ = { s₁ with timer := t } ∧ (s₁.pc = .idle ∨ s₁.timer.Alike t)

theorem Alike.write (h : Alike s₁ s₂) : Alike s₁.write s₂.write := by
  obtain ⟨c, t₁, now, pc, sent, result⟩ := s₁
  obtain ⟨t₂, rfl, ht⟩ := h
  rcases ht with rfl | ht
  · exact ⟨t₂, rfl, .inl rfl⟩
  have hstep : c.writeStep t₁ pc = c.writeStep t₂ pc := c.writeStep_congr ht.shouldReturn pc
  unfold WriteCall.write
  dsimp only
  rw [hstep]
  cases c.writeStep t₂ pc with
  | none | some r => exact ⟨t₂, rfl, .inr ht⟩

theorem Alike.step (h : Alike s₁ s₂) (a : Act) : Alike (s₁.step a) (s₂.step a) := by
  obtain ⟨t, rfl, ht⟩ := h
  cases a with
  | writer => exact Alike.write ⟨t, rfl, ht⟩
  | tick n => exact ⟨t, rfl, ht⟩
  | timer c => exact ⟨_, rfl, ht.imp_right fun ht => ht.looped _ c⟩
  | read =>
    exact ⟨_, rfl, ht.imp_right fun ht => ⟨ht.rest₁, ht.rest₂, ht.reqStop, ht.shown⟩⟩
  | attemptOK => exact ⟨_, rfl, ht.imp_right fun ht => ht.attemptOK _⟩
  | perform op =>
    unfold WriteCall.step
    dsimp only
    cases s₁.ch.perform .comm op with
    | none => exact ⟨t, rfl, ht⟩
    | some p =>
      refine ⟨_, rfl, ht.imp_right fun ht => ?_⟩
      by_cases hop : op = .stopIdle
      · exact .of_stopped (by simp [hop]) (by simp [hop])
      · simpa [hop] using ht

theorem Alike.run (h : Alike s₁ s₂) (acts : List Act) :
    Alike (s₁.run acts) (s₂.run acts) := by
  induction acts generalizing s₁ s₂ with
  | nil => exact h
  | cons a acts ih => exact ih (h.step a)

theorem writeExtended_eq {c : Channel} (hd : c.decided = true) (he : c.sentEOF = false)
    (hne : data ≠ []) :
    writeExtended c t now code data = ⟨c, t, now, .reserve code 0 data, [], none⟩ := by
  simp [writeExtended, write, Channel.writeStep, Channel.run, Channel.writeLoop, hd, he, hne,
    Effect.sends]

theorem writeExtended_done {c : Channel} (hd : c.decided = true)
    (h : c.sentEOF = true ∨ data = []) (code : Nat) :
    ∃ o, ∀ t now, writeExtended c t now code data = ⟨c, t, now, .idle, [], some o⟩ := by
  by_cases he : c.sentEOF = true
  · refine ⟨.wrote code 0 (some .eof), fun t now => ?_⟩
    simp [writeExtended, write, Channel.writeStep, Channel.run, hd, he, Effect.sends]
  refine ⟨.wrote code 0 none, fun t now => ?_⟩
  simp [writeExtended, write, Channel.writeStep, Channel.run, Channel.writeLoop, hd, he,
    h.resolve_left he, Effect.sends]

theorem result_write {c : Channel} (hopen : c.remoteWin.closed = false) (h : t.Resting) :
    (write ⟨c, t, now, .reserve code 0 data, [], none⟩).result =
      (if t.reqStop then some .eof else t.timeoutError).map fun e => .wrote code 0 (some e) := by
  unfold write
  simp only [Channel.writeStep, Window.reserveTimed, h.shouldReturn]
  cases (if t.reqStop then some .eof else t.timeoutError) with
  | some e => rfl
  | none =>
    by_cases hwin : c.remoteWin.win = 0
    · simp [Window.reserve, hopen, hwin]
    · simp [Window.reserve, hopen, hwin, reserved]

def openChannel : Channel :=
  { newChannel .outbound 0 with
    decided := true, maxRemotePayload := 100, remoteWin := ⟨100, false⟩ }

/-- A timeout that was disabled during a `Read`. -/
def disabled : IdleTimer :=
  { newIdleTimer with lastStart := 5, lastOK := 3, closed := [1, 0] }

end WriteCall
end XCryptoSsh
