import XCryptoSsh.Basic
import XCryptoSsh.Machine

namespace XCryptoSsh
set_option autoImplicit true

/-- The heartbeats of a timer come this many times in its duration. -/
def factor : Int := 10

/-- What a heartbeat found when it raised the timeout, as the message tells it. -/
structure TimeoutInfo where
  dur : Int
  since : Int
  udur : Int
  deriving DecidableEq, Repr

/-- Where the background goroutine stands: in its `select`, in the handling of a ticket, or in
`IdleStatus` after a heartbeat. -/
inductive LoopPc where
  | select
  | ticket (tk : Nat) (newdur : Int)
  | change (tk : Nat) (newdur : Int)
  | reset (tk : Nat)
  | settled (tk : Nat)
  | heartbeat
  | loadOK (mnow : Int)
  | loadStart (mnow lastOK : Int)
  | loadDur (mnow lastOK lastStart : Int)
  | returned
  | panicked (text : String)
  deriving DecidableEq, Repr

/-- An `IdleTimer` with the variables of its background goroutine. `heartbeat` is the interval of
its ticker, `reqStop` a stop of its Halter, and `closed` are the answered tickets. -/
structure IdleTimer where
  lastStart : Int
  lastOK : Int
  atomicdur : Int
  isOneshot : Bool
  reqStop : Bool
  dur : Int
  heartbeat : Option Int
  timeOutRaised : Option TimeoutInfo
  timeoutCallback : Nat
  closed : List Nat
  pc : LoopPc
  deriving DecidableEq, Repr

inductive IdleEvent where
  | began (mnow : Int)
  | ok (mnow : Int)
  | reset
  | set (tk : Nat) (dur : Int)
  | fired
  | oneshotDone
  | closed
  deriving DecidableEq, Repr

/-- The case the background goroutine's `select` takes, apart from a ticket. `observe` stands for
those that tell the timeout or the duration; elsewhere the goroutine goes on. -/
inductive LoopCase where
  | stop
  | observe
  | setCallback
  | addCallback
  | heartbeat
  | go
  deriving DecidableEq, Repr

def idleStatus (mnow lastOK lastStart todur : Int) : Bool :=
  if todur ≤ 0 ∨ lastStart ≤ 0 ∨ lastOK ≥ lastStart then false else
    decide (mnow - lastStart > todur)

namespace IdleTimer

/-- The timer of `NewIdleTimer(nil, 0)` once `newChannel` has added its callback. -/
def newIdleTimer : IdleTimer :=
  { lastStart := 0, lastOK := 0, atomicdur := 0, isOneshot := false, reqStop := false, dur := 0,
    heartbeat := none, timeOutRaised := none, timeoutCallback := 1, closed := [], pc := .select }

/-- `time.NewTicker` panics when the interval is not positive. -/
def newTicker (t : IdleTimer) (newdur : Int) (next : LoopPc) : IdleTimer :=
  let t := { t with dur := newdur, atomicdur := newdur }
  if newdur / factor ≤ 0 then { t with pc := .panicked "non-positive interval for NewTicker" }
  else { t with heartbeat := some (newdur / factor), pc := next }

def changeDur (t : IdleTimer) (tk : Nat) (newdur : Int) : IdleTimer :=
  if t.dur > 0 then
    if newdur = t.dur then { t with pc := .settled tk }
    else if newdur ≤ 0 then
      { t with dur := newdur, atomicdur := newdur, heartbeat := none, pc := .settled tk }
    else t.newTicker newdur (.reset tk)
  else if newdur ≤ 0 then { t with dur := 0, atomicdur := 0, pc := .settled tk }
  else t.newTicker newdur (.reset tk)

/-- After firing, the heartbeat is off until the timer is set again. -/
def raise (t : IdleTimer) (mnow lastStart : Int) : IdleTimer :=
  { t with
    timeOutRaised := some ⟨t.dur, mnow - lastStart, t.atomicdur⟩
    heartbeat := none
    pc := if t.timeoutCallback = 0 then .panicked "IdleTimer.timeoutCallback was never set!"
      else .select }

def loop (t : IdleTimer) (clock : Int) (c : LoopCase) : Option (IdleTimer × Option IdleEvent) :=
  match t.pc, c with
  | .select, .stop =>
    if t.reqStop then some ({ t with heartbeat := none, pc := .returned }, none) else none
  | .select, .observe => some (t, none)
  | .select, .setCallback => some ({ t with timeoutCallback := 1 }, none)
  | .select, .addCallback => some ({ t with timeoutCallback := t.timeoutCallback + 1 }, none)
  | .select, .heartbeat =>
    if t.heartbeat = none then none
    else if t.dur = 0 then
      some ({ t with
        pc := .panicked "should be impossible to get heartbeat.C on dur == 0" }, none)
    else some ({ t with pc := .heartbeat }, none)
  | .ticket tk newdur, .go =>
    some ({ t with timeOutRaised := none, lastStart := -1, pc := .change tk newdur }, some .reset)
  | .change tk newdur, .go => some (t.changeDur tk newdur, some (.set tk newdur))
  | .reset tk, .go => some ({ t with lastStart := -1, pc := .settled tk }, some .reset)
  | .settled tk, .go => some ({ t with closed := tk :: t.closed, pc := .select }, none)
  | .heartbeat, .go => some ({ t with pc := .loadOK clock }, none)
  | .loadOK mnow, .go => some ({ t with pc := .loadStart mnow t.lastOK }, none)
  | .loadStart mnow lastOK, .go => some ({ t with pc := .loadDur mnow lastOK t.lastStart }, none)
  | .loadDur mnow lastOK lastStart, .go =>
    if idleStatus mnow lastOK lastStart t.atomicdur then
      some (t.raise mnow lastStart, some .fired)
    else some ({ t with pc := .select }, none)
  | _, _ => none

end IdleTimer

/-- What a channel does with its read timer: `read` is a `Read` of one of its buffers, `attemptOK`
is made for every packet, `stop` comes from its closing. -/
inductive IdleCall where
  | read
  | attemptOK
  | setIdleTimeout (dur : Int)
  | setOneshotIdleTimeout (dur : Int)
  | stop
  deriving DecidableEq, Repr

inductive IdlePc where
  | idle
  | beginAttempt
  | storeStart (mnow : Int)
  | reading (start : Int)
  | attemptOK
  | stopOneshot
  | awaitDone
  | readClock
  | storeOK (mnow : Int)
  | storeOneshot (dur : Int)
  | newTicket (dur : Int)
  | sendTicket (tk : Nat) (dur : Int)
  | awaitTicket (tk : Nat) (dur : Int)
  | requestStop
  deriving DecidableEq, Repr

def IdleCall.enter : IdleCall → IdlePc
  | .read => .beginAttempt
  | .attemptOK => .attemptOK
  | .setIdleTimeout dur => .newTicket dur
  | .setOneshotIdleTimeout dur => .storeOneshot dur
  | .stop => .requestStop

/-- A timer, the goroutines that use it and the clock. `tickets` are the durations of the tickets so
far, `history` is what happened, the latest first. -/
structure IdleSys (ι : Type) where
  timer : IdleTimer
  pcs : ι → IdlePc
  clock : Int
  tickets : List Int
  history : List IdleEvent

/-- `run` is a step of a call, which takes the stop case of a `select` if told so; `wake` ends the
waiting of a `Read`, `send` hands a ticket over. -/
inductive IdleAct (ι : Type) where
  | tick (n : Nat)
  | call (g : ι) (m : IdleCall)
  | run (g : ι) (stop : Bool)
  | wake (g : ι) (ok : Bool)
  | send (g : ι)
  | loop (c : LoopCase)
  deriving DecidableEq, Repr

/-- A step of a call: the timer, where the goroutine goes, and what it did. -/
def IdleTimer.call (t : IdleTimer) (clock : Int) (nextTicket : Nat) (stop : Bool) :
    IdlePc → Option (IdleTimer × IdlePc × Option IdleEvent)
  | .beginAttempt => some (t, .storeStart clock, none)
  | .storeStart mnow => some ({ t with lastStart := mnow }, .reading mnow, some (.began mnow))
  | .attemptOK => some (t, if t.isOneshot then .stopOneshot else .readClock, none)
  | .stopOneshot => some ({ t with reqStop := true }, .awaitDone, some .oneshotDone)
  | .awaitDone => if t.pc = .returned then some (t, .idle, none) else none
  | .readClock => some (t, .storeOK clock, none)
  | .storeOK mnow => some ({ t with lastOK := mnow }, .idle, some (.ok mnow))
  | .storeOneshot dur => some ({ t with isOneshot := true }, .newTicket dur, none)
  | .newTicket dur => some (t, .sendTicket nextTicket dur, none)
  | .sendTicket tk dur => if stop && t.reqStop then some (t, .awaitTicket tk dur, none) else none
  | .awaitTicket tk _ =>
    if (if stop then t.reqStop else decide (tk ∈ t.closed)) then some (t, .idle, none) else none
  | .requestStop => some ({ t with reqStop := true }, .idle, some .closed)
  | _ => none

namespace IdleSys

variable [DecidableEq ι]

def start (clock : Int) : IdleSys ι :=
  { timer := .newIdleTimer, pcs := fun _ => .idle, clock, tickets := [], history := [] }

def goto (s : IdleSys ι) (g : ι) (pc : IdlePc) : IdleSys ι :=
  { s with pcs := Function.update s.pcs g pc }

def after (s : IdleSys ι) (t : IdleTimer) (e : Option IdleEvent) : IdleSys ι :=
  { s with timer := t, history := e.toList ++ s.history }

def step (s : IdleSys ι) : IdleAct ι → Option (IdleSys ι)
  | .tick n => some { s with clock := s.clock + n }
  | .call g m => if s.pcs g = .idle then some (s.goto g m.enter) else none
  | .run g stop =>
    match s.timer.call s.clock s.tickets.length stop (s.pcs g) with
    | none => none
    | some (t, pc, e) =>
      some { (s.after t e).goto g pc with
        tickets := s.tickets ++ match s.pcs g with
          | .newTicket dur => [dur]
          | _ => [] }
  | .wake g ok =>
    match s.pcs g with
    | .reading _ => some (s.goto g (if ok then .attemptOK else .idle))
    | _ => none
  | .send g =>
    match s.pcs g, s.timer.pc with
    | .sendTicket tk dur, .select =>
      some ((s.after { s.timer with pc := .ticket tk dur } none).goto g (.awaitTicket tk dur))
    | _, _ => none
  | .loop c =>
    match s.timer.loop s.clock c with
    | none => none
    | some (t, e) => some (s.after t e)

end IdleSys

end XCryptoSsh
