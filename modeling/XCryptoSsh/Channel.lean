import XCryptoSsh.Basic
import XCryptoSsh.Go

namespace XCryptoSsh
set_option autoImplicit true

open Go (Bytes u32 subU32)

def minPacketLength : Nat := 9
def channelMaxPacket : Nat := 2 ^ 15
def channelWindowSize : Nat := 64 * channelMaxPacket

/-- The function `min` of the package: `b` is an `int` that is cut to 32 bits. -/
def minUint32 (a b : Nat) : Nat := if a < u32 b then a else u32 b

structure Window where
  win : Nat
  closed : Bool
  deriving DecidableEq, Repr

namespace Window

def add (w : Window) (n : Nat) : Bool × Window :=
  if n = 0 then (true, w)
  else if u32 (w.win + n) < n then (false, w)
  else (true, { w with win := u32 (w.win + n) })

def close (w : Window) : Window := { w with closed := true }

/-- `none` while the caller waits. A stop of the idle timer is seen on entry and after every
wake-up, since its goroutine never parks once it is asked to stop. A reservation that meets a closed
window is taken and lost. -/
def reserve (w : Window) (stop : Bool) (n : Nat) : Option (Nat × Option Err × Window) :=
  if stop then some (0, some .eof, w)
  else if w.win = 0 ∧ w.closed = false then none
  else
    let num := if w.win < n then w.win else n
    some (num, if w.closed then some .eof else none, { w with win := subU32 w.win num })

end Window

/-- The linked list from `head` to `tail`, which always has an element. -/
structure Buffer where
  head : Bytes
  next : List Bytes
  closed : Bool
  deriving DecidableEq, Repr

namespace Buffer

def newBuffer : Buffer := ⟨[], [], false⟩

def write (b : Buffer) (buf : Bytes) : Buffer := { b with next := b.next ++ [buf] }

def eof (b : Buffer) : Buffer := { b with closed := true }

def copyOut (n : Nat) (head : Bytes) : List Bytes → Bytes × Bytes × List Bytes
  | [] => (head.take n, head.drop n, [])
  | e :: es =>
    if n ≤ head.length then (head.take n, head.drop n, e :: es)
    else
      let r := copyOut (n - head.length) e es
      (head ++ r.1, r.2)

/-- `none` while the reader waits. -/
def read (b : Buffer) (n : Nat) : Option (Bytes × Option Err × Buffer) :=
  if n = 0 then some ([], none, b)
  else
    let r := copyOut n b.head b.next
    let b' := { b with head := r.2.1, next := r.2.2 }
    if r.1 ≠ [] then some (r.1, none, b')
    else if b.closed then some ([], some .eof, b')
    else none

def unread (b : Buffer) : Bytes := b.head ++ b.next.flatten

end Buffer

structure OpenFailure where
  reason : Nat
  message : String
  language : String
  deriving DecidableEq, Repr

/-- Channel packets after the type byte and the recipient's id. `malformed` does not decode, and
`other` decodes to a message of another part of the protocol. -/
inductive ChanMsg where
  | data (extended : Option Nat) (length : Nat) (payload : Bytes)
  | windowAdjust (additionalBytes : Nat)
  | eof
  | close
  | openConfirm (myId myWindow maxPacketSize : Nat)
  | openFailure (failure : OpenFailure)
  | request (name : String) (wantReply : Bool) (payload : Bytes)
  | success
  | failure
  | malformed (error : Err)
  | other (tag : UInt8)
  deriving DecidableEq, Repr

structure Request where
  name : String
  wantReply : Bool
  payload : Bytes
  deriving DecidableEq, Repr

inductive ChannelDirection where
  | inbound
  | outbound
  deriving DecidableEq, Repr

structure Queue (α : Type) where
  items : List α
  closed : Bool
  deriving DecidableEq, Repr

def Queue.empty : Queue α := ⟨[], false⟩

/-- The state of a `channel`; `idleStop` and `haltStop` say that its idle timers and its Halter
have been asked to stop. -/
structure Channel where
  direction : ChannelDirection
  localId : Nat
  remoteId : Nat
  maxIncomingPayload : Nat
  maxRemotePayload : Nat
  decided : Bool
  msg : Queue ChanMsg
  incomingRequests : Queue Request
  sentRequestMu : Bool
  sentEOF : Bool
  remoteWin : Window
  pending : Buffer
  extPending : Buffer
  myWindow : Nat
  sentClose : Bool
  hasClosed : Bool
  idleStop : Bool
  haltStop : Bool
  deriving DecidableEq, Repr

def errUndecided : Err := .text "ssh: must Accept or Reject channel"
def errPayloadSize : Err := .text "ssh: incoming packet exceeds maximum payload size"
def errPacketLength : Err := .text "ssh: wrong packet length"
def errWroteTooMuch : Err := .text "ssh: remote side wrote too much"
def errInbound : Err := .text "ssh: channel response message received on inbound channel"
def errDuplicate : Err := .text "ssh: duplicate response received for channel"
def errMaxPacketSize (n : Nat) : Err := .text s!"ssh: invalid MaxPacketSize {n} from peer"
def errWindowUpdate (n : Nat) : Err := .text s!"ssh: invalid window update for {n} bytes"
def errUnimplemented (n : Nat) : Err := .text s!"ssh: extended code {n} unimplemented"

inductive Fault where
  | err (e : Err)
  | panic (text : String)
  deriving DecidableEq, Repr

/-- What a step does outside the channel it belongs to. -/
inductive Effect where
  | send (m : ChanMsg)
  | remove (id : Nat)
  | fault (f : Fault)
  deriving DecidableEq, Repr

namespace Channel

def newChannel (direction : ChannelDirection) (localId : Nat) : Channel :=
  { direction, localId, remoteId := 0, maxIncomingPayload := 0, maxRemotePayload := 0,
    decided := false, msg := .empty, incomingRequests := .empty, sentRequestMu := false,
    sentEOF := false, remoteWin := ⟨0, false⟩, pending := .newBuffer, extPending := .newBuffer,
    myWindow := channelWindowSize, sentClose := false, hasClosed := false, idleStop := false,
    haltStop := false }

/-- `writePacket` refuses every packet that would follow a CLOSE. -/
def writePacket (c : Channel) (m : ChanMsg) : Except Err Channel :=
  if c.sentClose then .error .eof else .ok { c with sentClose := m == .close }

def stream (c : Channel) (code : Nat) : Option Buffer :=
  if code = 1 then some c.extPending else if code = 0 then some c.pending else none

def setStream (c : Channel) (b : Buffer) (code : Nat) : Channel :=
  { c with pending := if code = 0 then b else c.pending,
           extPending := if code = 1 then b else c.extPending }

end Channel

/-- The case a `select` takes: its communication, the stop of the channel's Halter, or that of the
Halter of the mux, which is not part of a channel's state. -/
inductive Choice where
  | comm
  | halt
  | muxHalt
  deriving DecidableEq, Repr

/-- The methods of a `Channel`. `write` and `read` stand for `Write`, `Read` and, with a code above
0, for those of `Extended(code)`. -/
inductive Method where
  | write (code : Nat) (data : Bytes)
  | read (code n : Nat)
  | closeWrite
  | close
  | sendRequest (name : String) (wantReply : Bool) (payload : Bytes)
  | ackRequest (ok : Bool)
  deriving DecidableEq, Repr

/-- Where a goroutine stands in a method. -/
inductive Pc where
  | idle
  | write (code : Nat) (data : Bytes)
  | reserve (code n : Nat) (data : Bytes)
  | send (code n : Nat) (todo data : Bytes)
  | read (code n : Nat)
  | credit (code : Nat) (taken : Bytes)
  | adjust (code : Nat) (taken : Bytes)
  | closeWrite
  | sendEOF
  | close
  | stopIdle
  | stopHalt
  | sendClose
  | sendRequest (name : String) (wantReply : Bool) (payload : Bytes)
  | lockRequest (name : String) (payload : Bytes)
  | transmit (name : String) (wantReply : Bool) (payload : Bytes)
  | awaitReply
  | ackRequest (ok : Bool)
  deriving DecidableEq, Repr

def Method.enter : Method → Pc
  | .write code data => .write code data
  | .read code n => .read code n
  | .closeWrite => .closeWrite
  | .close => .close
  | .sendRequest name wantReply payload => .sendRequest name wantReply payload
  | .ackRequest ok => .ackRequest ok

inductive Outcome where
  | wrote (code n : Nat) (err : Option Err)
  | read (code : Nat) (data : Bytes) (err : Option Err)
  | done (err : Option Err)
  | answered (ok : Bool) (err : Option Err)
  deriving DecidableEq, Repr

structure Ran where
  ch : Channel
  pc : Pc
  effect : Option Effect
  returned : Option Outcome
  deriving DecidableEq, Repr

namespace Channel

@[simp] def goto (c : Channel) (pc : Pc) : Ran := ⟨c, pc, none, none⟩
@[simp] def ret (c : Channel) (o : Outcome) : Ran := ⟨c, .idle, none, some o⟩

def sending (c : Channel) (m : ChanMsg) (failed : Err → Outcome) (next : Channel → Ran) : Ran :=
  match c.writePacket m with
  | .error e => c.ret (failed e)
  | .ok c' => { next c' with effect := some (.send m) }

def dataMsg (code : Nat) (todo : Bytes) : ChanMsg :=
  .data (if code > 0 then some code else none) (u32 todo.length) todo

def writeLoop (c : Channel) (code n : Nat) (data : Bytes) : Ran :=
  if data = [] then c.ret (.wrote code n none) else c.goto (.reserve code n data)

def replyOf : ChanMsg → Outcome
  | .failure => .answered false none
  | .success => .answered true none
  | _ => .answered false (some (.text "ssh: unexpected response to channel request"))

/-- One step of the goroutine at `pc`. A method that needs a decided channel is refused before;
`Extended` hands out nothing then. -/
def run (c : Channel) (choice : Choice) : Pc → Option Ran
  | .idle => none
  | .write code data =>
    some <|
      if c.decided = false then c.ret (.wrote code 0 (some errUndecided))
      else if c.sentEOF then c.ret (.wrote code 0 (some .eof))
      else c.writeLoop code 0 data
  | .reserve code n data =>
    match c.remoteWin.reserve c.idleStop (minUint32 c.maxRemotePayload data.length) with
    | none => none
    | some (_, some e, w) => some (ret { c with remoteWin := w } (.wrote code n (some e)))
    | some (space, none, w) =>
      some (goto { c with remoteWin := w } (.send code n (data.take space) (data.drop space)))
  | .send code n todo data =>
    some <| c.sending (dataMsg code todo) (fun e => .wrote code n (some e))
      fun c' => c'.writeLoop code (n + todo.length) data
  | .read code n =>
    if c.decided = false then some (c.ret (.read code [] (some errUndecided)))
    else match c.stream code with
      | none => some (c.ret (.read code [] (some (errUnimplemented code))))
      | some b => (b.read n).map fun (taken, err, b') =>
        if taken = [] then (c.setStream b' code).ret (.read code [] err)
        else (c.setStream b' code).goto (.credit code taken)
  | .credit code taken =>
    some (goto { c with myWindow := u32 (c.myWindow + u32 taken.length) } (.adjust code taken))
  | .adjust code taken =>
    -- an EOF from the send is not passed on: the caller still gets the bytes
    some <| c.sending (.windowAdjust (u32 taken.length)) (fun _ => .read code taken none)
      fun c' => c'.ret (.read code taken none)
  | .closeWrite =>
    some <|
      if c.decided = false then c.ret (.done (some errUndecided))
      else goto { c with sentEOF := true } .sendEOF
  | .sendEOF => some <| c.sending .eof (fun e => .done (some e)) fun c' => c'.ret (.done none)
  | .close =>
    some <| if c.hasClosed then c.ret (.done none) else goto { c with hasClosed := true } .stopIdle
  | .stopIdle => some (goto { c with idleStop := true } .stopHalt)
  | .stopHalt => some (goto { c with haltStop := true } .sendClose)
  | .sendClose =>
    some <|
      if c.decided = false then c.ret (.done (some errUndecided))
      else c.sending .close (fun e => .done (some e)) fun c' => c'.ret (.done none)
  | .sendRequest name wantReply payload =>
    some <|
      if c.decided = false then c.ret (.answered false (some errUndecided))
      else if wantReply then c.goto (.lockRequest name payload)
      else c.goto (.transmit name false payload)
  | .lockRequest name payload =>
    if c.sentRequestMu then none
    else some (goto { c with sentRequestMu := true } (.transmit name true payload))
  | .transmit name wantReply payload =>
    -- the deferred unlock runs on every return of a call that wants a reply
    let unlocked := { c with sentRequestMu := !wantReply && c.sentRequestMu }
    match c.writePacket (.request name wantReply payload) with
    | .error e => some (unlocked.ret (.answered false (some e)))
    | .ok c' =>
      let sent := some (.send (.request name wantReply payload))
      if wantReply then some { c'.goto .awaitReply with effect := sent }
      else some { c'.ret (.answered false none) with effect := sent }
  | .awaitReply =>
    let unlocked := { c with sentRequestMu := false }
    let eof := some (unlocked.ret (.answered false (some .eof)))
    match choice with
    | .muxHalt => eof
    | .halt => if c.haltStop then eof else none
    | .comm => match c.msg.items with
      | m :: ms => some (ret { unlocked with msg := { c.msg with items := ms } } (replyOf m))
      | [] => if c.msg.closed then eof else none
  | .ackRequest ok =>
    some <|
      if c.decided = false then c.ret (.done (some errUndecided))
      else c.sending (if ok then .success else .failure) (fun e => .done (some e))
        fun c' => c'.ret (.done none)

end Channel

/-- The steps of `handlePacket` and `close`. -/
inductive Op where
  | fail (e : Err)
  | debit (extended : Option Nat) (length : Nat) (payload : Bytes)
  | store (extended : Nat) (payload : Bytes)
  | sendClose
  | remove
  | eofPending
  | eofExtPending
  | closeMsg
  | closeRequests
  | markSentClose
  | closeWin
  | stopHalt
  | stopIdle
  | respond
  | confirm (myId myWindow maxPacketSize : Nat)
  | addWindow (n : Nat)
  | pushMsg (m : ChanMsg)
  | pushRequest (r : Request)
  deriving DecidableEq, Repr

namespace Op

def close : List Op :=
  [.eofPending, .eofExtPending, .closeMsg, .closeRequests, .markSentClose, .closeWin, .stopHalt,
    .stopIdle]

/-- The steps `handlePacket` takes for a packet, while none of them fails. -/
def handlePacket : ChanMsg → List Op
  | .data extended length payload => [.debit extended length payload]
  | .close => .sendClose :: .remove :: close
  | .eof => [.eofExtPending, .eofPending]
  | .malformed e => [.fail e]
  | .openFailure f => [.respond, .remove, .pushMsg (.openFailure f)]
  | .openConfirm myId myWindow maxPacketSize =>
    [.respond, .confirm myId myWindow maxPacketSize,
      .pushMsg (.openConfirm myId myWindow maxPacketSize)]
  | .windowAdjust n => [.addWindow n]
  | .request name wantReply payload => [.pushRequest ⟨name, wantReply, payload⟩]
  | .success => [.pushMsg .success]
  | .failure => [.pushMsg .failure]
  | .other tag => [.pushMsg (.other tag)]

end Op

/-- The result of a step of the packet loop; `more` is done before the rest of the packet's
steps. -/
structure Performed where
  ch : Channel
  effect : Option Effect
  more : List Op
  deriving DecidableEq, Repr

/-- The send case of a `select` on a buffered channel; `none` while it is full. -/
def Queue.push (q : Queue α) (x : α) : Option (Except Fault (Queue α)) :=
  if q.closed then some (.error (.panic "send on closed channel"))
  else if q.items.length < chanSize then some (.ok { q with items := q.items ++ [x] })
  else none

def Queue.close (q : Queue α) : Except Fault (Queue α) :=
  if q.closed then .error (.panic "close of closed channel") else .ok { q with closed := true }

namespace Channel

def step (c : Channel) : Performed := ⟨c, none, []⟩
def fault (c : Channel) (f : Fault) : Performed := ⟨c, some (.fault f), []⟩
def fail (c : Channel) (e : Err) : Performed := c.fault (.err e)

def debit (c : Channel) (extended : Option Nat) (length : Nat) (payload : Bytes) : Performed :=
  if length = 0 then c.step
  else if length > c.maxIncomingPayload then c.fail errPayloadSize
  else if length ≠ u32 payload.length then c.fail errPacketLength
  else if c.myWindow < length then c.fail errWroteTooMuch
  else
    ⟨{ c with myWindow := subU32 c.myWindow length }, none, [.store (extended.getD 0) payload]⟩

/-- Data of an extended code above 1 is discarded. -/
def storeData (c : Channel) (extended : Nat) (payload : Bytes) : Channel :=
  if extended = 1 then { c with extPending := c.extPending.write payload }
  else if extended > 0 then c
  else { c with pending := c.pending.write payload }

def responseMessageReceived (c : Channel) : Performed :=
  if c.direction = .inbound then c.fail errInbound
  else if c.decided then c.fail errDuplicate
  else step { c with decided := true }

/-- The result of `add` is not looked at here. -/
def confirm (c : Channel) (myId myWindow maxPacketSize : Nat) : Performed :=
  if maxPacketSize < minPacketLength ∨ maxPacketSize > 2 ^ 31 then
    c.fail (errMaxPacketSize maxPacketSize)
  else
    step { c with remoteId := myId, maxRemotePayload := maxPacketSize,
                  remoteWin := (c.remoteWin.add myWindow).2 }

def addWindow (c : Channel) (n : Nat) : Performed :=
  let (ok, w) := c.remoteWin.add n
  if ok then step { c with remoteWin := w } else c.fail (errWindowUpdate n)

/-- A `select` between a send and the stop of a Halter. -/
def selectSend (c : Channel) (choice : Choice) (q : Queue α) (x : α) (store : Queue α → Channel) :
    Option Performed :=
  match choice with
  | .muxHalt => some (c.fail .eof)
  | .halt => if c.haltStop then some (c.fail .eof) else none
  | .comm => match q.push x with
    | none => none
    | some (.error f) => some (c.fault f)
    | some (.ok q') => some (store q').step

def closing (c : Channel) (q : Queue α) (store : Queue α → Channel) : Performed :=
  match q.close with
  | .error f => c.fault f
  | .ok q' => (store q').step

def perform (c : Channel) (choice : Choice) : Op → Option Performed
  | .fail e => some (c.fail e)
  | .debit extended length payload => some (c.debit extended length payload)
  | .store extended payload => some (c.storeData extended payload).step
  | .sendClose =>
    -- the result of the send is dropped
    some <| match c.writePacket .close with
      | .error _ => c.step
      | .ok c' => ⟨c', some (.send .close), []⟩
  | .remove => some ⟨c, some (.remove c.localId), []⟩
  | .eofPending => some (step { c with pending := c.pending.eof })
  | .eofExtPending => some (step { c with extPending := c.extPending.eof })
  | .closeMsg => some (c.closing c.msg fun q => { c with msg := q })
  | .closeRequests => some (c.closing c.incomingRequests fun q => { c with incomingRequests := q })
  | .markSentClose => some (step { c with sentClose := true })
  | .closeWin => some (step { c with remoteWin := c.remoteWin.close })
  | .stopHalt => some (step { c with haltStop := true })
  | .stopIdle => some (step { c with idleStop := true })
  | .respond => some c.responseMessageReceived
  | .confirm myId myWindow maxPacketSize => some (c.confirm myId myWindow maxPacketSize)
  | .addWindow n => some (c.addWindow n)
  | .pushMsg m => c.selectSend choice c.msg m fun q => { c with msg := q }
  | .pushRequest r => c.selectSend choice c.incomingRequests r fun q =>
      { c with incomingRequests := q }

end Channel

structure ChannelOpen where
  peersId : Nat
  peersWindow : Nat
  maxPacketSize : Nat
  deriving DecidableEq, Repr

namespace Channel

def openChannel (localId : Nat) : Channel :=
  { newChannel .outbound localId with maxIncomingPayload := channelMaxPacket }

def openMsg (c : Channel) : ChannelOpen := ⟨c.localId, c.myWindow, c.maxIncomingPayload⟩

def handleChannelOpen (localId : Nat) (msg : ChannelOpen) : Channel :=
  let c := newChannel .inbound localId
  { c with remoteId := msg.peersId, maxRemotePayload := msg.maxPacketSize,
           remoteWin := (c.remoteWin.add msg.peersWindow).2 }

def accept (c : Channel) : Channel × ChanMsg :=
  let c := { c with maxIncomingPayload := channelMaxPacket, decided := true }
  (c, .openConfirm c.localId c.myWindow c.maxIncomingPayload)

end Channel

end XCryptoSsh
