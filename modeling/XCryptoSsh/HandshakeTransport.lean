import XCryptoSsh.Basic
import XCryptoSsh.Machine

namespace XCryptoSsh
set_option autoImplicit true

def DirectionAlgorithms.rekeyBytes (a : DirectionAlgorithms) : Int :=
  if a.cipher ∈ ["aes128-ctr", "aes192-ctr", "aes256-ctr", "aes128-gcm@openssh.com",
    "aes128-cbc"] then 16 * 2 ^ 32 else 2 ^ 30

structure Algorithms where
  kex : String
  hostKey : String
  w : DirectionAlgorithms
  r : DirectionAlgorithms
  deriving DecidableEq, Repr

/-- The part of `Config` and of the constructor arguments that the transport reads. -/
structure HandshakeConfig where
  rekeyThreshold : Nat
  isServer : Bool
  deriving DecidableEq, Repr

def packetRekeyThreshold : Nat := 2 ^ 31

def HandshakeConfig.bytesLeft (c : HandshakeConfig) (a : Option DirectionAlgorithms) : Int :=
  if 0 < c.rekeyThreshold then c.rekeyThreshold
  else match a with
    | some d => d.rekeyBytes
    | none => 2 ^ 30

inductive Origin where
  | app
  | kexInit
  | kex
  deriving DecidableEq, Repr

structure ConnWrite where
  origin : Origin
  packet : Packet
  result : Option Err
  deriving DecidableEq, Repr

inductive WriterPc where
  | lock
  | check
  | push
  | unlock (r : Option Err)
  | done (r : Option Err)
  deriving DecidableEq, Repr

structure Writer where
  packet : Packet
  pc : WriterPc
  deriving DecidableEq, Repr

inductive KexIO where
  | read
  | write
  deriving DecidableEq, Repr

inductive ExchangePc where
  | parse
  | skipGuess
  | kex (todo : List KexIO)
  | prepare
  | newKeysOut
  | newKeysIn
  deriving DecidableEq, Repr

/-- Progress of `kexLoop`; `request` is the `otherInit` of the request it has received. -/
inductive KexPc where
  | top
  | select (request : Option Packet) (sent : Bool)
  | lockInit (request : Option Packet)
  | pushInit (request : Option Packet)
  | record (e : Err) (request : Option Packet)
  | check (request : Option Packet)
  | refuse (e : Err)
  | exchange (x : ExchangePc)
  | lockFinish (r : Option Err)
  | clear
  | notify
  | flush (todo : List Packet)
  | leave
  | returned
  deriving DecidableEq, Repr

/-- Progress of `readLoop` and of the `readOnePacket` call inside it. -/
inductive ReadPc where
  | read (first : Bool)
  | got (first : Bool) (p : Packet)
  | offer (otherInit : Packet) (firstKex : Bool)
  | await (firstKex : Bool)
  | deliver (p : Packet)
  | fail (e : Err)
  | record
  | closeStart
  | returned
  deriving DecidableEq, Repr

/-- Progress of the goroutine that drains `startKex` after `kexLoop` has left its loop. -/
inductive DrainPc where
  | off
  | select
  | reply
  | returned
  deriving DecidableEq, Repr

inductive Holder where
  | writer (i : Nat)
  | kexLoop
  deriving DecidableEq, Repr

/-- The transport with its goroutines. The two initial-message fields of the source are set and
cleared together, so one stands for both. `stop` is a closed `Halt.ReqStopChan()` or `ctx.Done()`;
`done` is the buffer of the current `pendingKex`. -/
structure HandshakeTransport where
  config : HandshakeConfig
  mu : Option Holder
  writeError : Option Err
  sentInitMsg : Option Packet
  pendingPackets : List Packet
  requestKex : Bool
  startKex : Option Packet
  startKexClosed : Bool
  done : Option (Option Err)
  algorithms : Option Algorithms
  readPacketsLeft : Nat
  readBytesLeft : Int
  writePacketsLeft : Nat
  writeBytesLeft : Int
  sessionID : Option (List UInt8)
  incoming : List Packet
  incomingClosed : Bool
  readError : Option Err
  sent : List ConnWrite
  connClosed : Bool
  stop : Bool
  writers : List Writer
  took : List Nat
  kex : KexPc
  reader : ReadPc
  drain : DrainPc
  deriving DecidableEq, Repr

def setPc (ws : List Writer) (i : Nat) (pc : WriterPc) : List Writer :=
  ws.modify i fun w => { w with pc := pc }

namespace HandshakeTransport

/-- `newHandshakeTransport`: a key exchange is requested before anything else happens. -/
def new (c : HandshakeConfig) : HandshakeTransport where
  config := c
  mu := none
  writeError := none
  sentInitMsg := none
  pendingPackets := []
  requestKex := true
  startKex := none
  startKexClosed := false
  done := none
  algorithms := none
  readPacketsLeft := packetRekeyThreshold
  readBytesLeft := c.bytesLeft none
  writePacketsLeft := packetRekeyThreshold
  writeBytesLeft := c.bytesLeft none
  sessionID := none
  incoming := []
  incomingClosed := false
  readError := none
  sent := []
  connClosed := false
  stop := false
  writers := []
  took := []
  kex := .top
  reader := .read true
  drain := .off

section

variable (t : HandshakeTransport)

def resetWriteThresholds : HandshakeTransport :=
  { t with
    writePacketsLeft := packetRekeyThreshold
    writeBytesLeft := t.config.bytesLeft (t.algorithms.map Algorithms.w) }

def resetReadThresholds : HandshakeTransport :=
  { t with
    readPacketsLeft := packetRekeyThreshold
    readBytesLeft := t.config.bytesLeft (t.algorithms.map Algorithms.r) }

/-- The non-blocking send on a channel of capacity one. -/
def requestKeyExchange : HandshakeTransport :=
  { t with requestKex := true }

/-- `conn.writePacket`, with the result the connection gave. -/
def connWrite (o : Origin) (p : Packet) (r : Option Err) :
    HandshakeTransport :=
  { t with sent := t.sent ++ [⟨o, p, r⟩] }

def recordWriteError (e : Err) : HandshakeTransport :=
  if t.writeError = none then { t with writeError := some e } else t

def setWriter (i : Nat) (pc : WriterPc) : HandshakeTransport :=
  { t with writers := setPc t.writers i pc }

end

variable (t : HandshakeTransport)

/-- A call of `writePacket`, up to its attempt to take `t.mu`. -/
def callWritePacket (p : Packet) : HandshakeTransport :=
  let pc : WriterPc :=
    if p.tag = msgKexInit then
      .done (some (.text "ssh: only handshakeTransport can send kexInit"))
    else if p.tag = msgNewKeys then
      .done (some (.text "ssh: only handshakeTransport can send newKeys"))
    else .lock
  { t with writers := t.writers ++ [⟨p, pc⟩] }

def countWriteBytes (p : Packet) : HandshakeTransport :=
  if 0 < t.writeBytesLeft then { t with writeBytesLeft := t.writeBytesLeft - p.length }
  else t.requestKeyExchange

def countWritePacket : HandshakeTransport :=
  if 0 < t.writePacketsLeft then { t with writePacketsLeft := t.writePacketsLeft - 1 }
  else t.requestKeyExchange

/-- One step of the `i`-th `writePacket` call; `r` is the connection's answer to a push. -/
def stepWriter (i : Nat) (r : Option Err) :
    Option HandshakeTransport :=
  match t.writers[i]? with
  | none => none
  | some w =>
    match w.pc with
    | .lock =>
      if t.mu = none then
        some { t.setWriter i .check with mu := some (.writer i), took := t.took ++ [i] }
      else none
    | .check =>
      match t.writeError with
      | some e => some (t.setWriter i (.unlock (some e)))
      | none =>
        if t.sentInitMsg = none then
          some ((t.countWriteBytes w.packet).countWritePacket.setWriter i .push)
        else
          some { t.setWriter i (.unlock none) with
            pendingPackets := t.pendingPackets ++ [w.packet] }
    | .push =>
      -- writePacket reports success even when the push failed
      let t := (t.connWrite .app w.packet r).setWriter i (.unlock none)
      match r with
      | some e => some { t with writeError := some e }
      | none => some t
    | .unlock res => some { t.setWriter i (.done res) with mu := none }
    | .done _ => none

inductive KexChoice where
  | go
  | startKex
  | requestKex
  | stop
  | push (body : List UInt8) (r : Option Err)
  | parsed (a : Algorithms) (wrongGuess : Bool)
  | disagree (e : Err)
  | fail (e : Err)
  | wrote (p : Packet) (r : Option Err)
  | result (h : List UInt8)
  | packet (p : Packet)
  deriving DecidableEq, Repr

def kexTraffic (isServer : Bool) : List KexIO :=
  if isServer then [.read, .write] else [.write, .read]

/-- The loop test `request == nil || !sent` once `sendKexInit` has succeeded. -/
def afterInit : Option Packet → KexPc
  | none => .select none true
  | some p => .check (some p)

/-- One step of `enterKeyExchange`. Decoding, negotiation, key agreement, signature checks and
`hostKeyCallback` appear through their outcomes. -/
def stepExchange (x : ExchangePc) (c : KexChoice) :
    Option HandshakeTransport :=
  match x, c with
  | .parse, .parsed a wrongGuess =>
    some { t with
      algorithms := some a
      kex := .exchange (if wrongGuess then .skipGuess else .kex (kexTraffic t.config.isServer)) }
  | .parse, .disagree e => some { t with algorithms := none, kex := .lockFinish (some e) }
  | .skipGuess, .packet _ =>
    some { t with kex := .exchange (.kex (kexTraffic t.config.isServer)) }
  | .kex (.read :: todo), .packet _ => some { t with kex := .exchange (.kex todo) }
  | .kex (.write :: todo), .wrote p r =>
    let t := t.connWrite .kex p r
    match r with
    | none => some { t with kex := .exchange (.kex todo) }
    | some e => some { t with kex := .lockFinish (some e) }
  | .kex [], .result h =>
    some { t with sessionID := some (t.sessionID.getD h), kex := .exchange .prepare }
  | .prepare, .go => some { t with kex := .exchange .newKeysOut }
  | .newKeysOut, .wrote _ r =>
    let t := t.connWrite .kex ⟨msgNewKeys, []⟩ r
    match r with
    | none => some { t with kex := .exchange .newKeysIn }
    | some e => some { t with kex := .lockFinish (some e) }
  | .newKeysIn, .packet p =>
    if p.tag = msgNewKeys then some { t with kex := .lockFinish none }
    else some { t with kex := .lockFinish (some (unexpectedMessageError msgNewKeys p.tag)) }
  | .newKeysOut, .fail _ => none
  | _, .fail e => some { t with kex := .lockFinish (some e) }
  | _, _ => none

def stepKex (c : KexChoice) : Option HandshakeTransport :=
  match t.kex, c with
  | .top, .go =>
    if t.mu = none then
      some { t with kex := if t.writeError = none then .select none false else .leave }
    else none
  | .select _ sent, .startKex =>
    match t.startKex with
    | some p =>
      some { t with startKex := none, kex := if sent then .check (some p) else .lockInit (some p) }
    | none => if t.startKexClosed then some { t with kex := .leave } else none
  | .select request sent, .requestKex =>
    if t.requestKex then
      some { t with
        requestKex := false
        kex := if sent then .select request sent else .lockInit request }
    else none
  | .select _ _, .stop => if t.stop then some { t with kex := .returned } else none
  | .lockInit request, .go =>
    if t.mu = none then
      match t.sentInitMsg with
      | some _ => some { t with kex := afterInit request }
      | none => some { t with mu := some .kexLoop, kex := .pushInit request }
    else none
  | .pushInit request, .push body r =>
    let t := { t.connWrite .kexInit ⟨msgKexInit, body⟩ r with mu := none }
    match r with
    | none => some { t with sentInitMsg := some ⟨msgKexInit, body⟩, kex := afterInit request }
    | some e => some { t with kex := .record e request }
  | .record e request, .go =>
    if t.mu = none then some { t.recordWriteError e with kex := .check request } else none
  | .check request, .go =>
    if t.mu = none then
      match t.writeError, request with
      | some _, none => some { t with kex := .leave }
      | some e, some _ => some { t with kex := .refuse e }
      | none, some _ => some { t with kex := .exchange .parse }
      -- the source would dereference a nil request here
      | none, none => none
    else none
  | .refuse e, .go => some { t with done := some (some e), kex := .leave }
  | .refuse _, .stop => if t.stop then some { t with kex := .returned } else none
  | .exchange x, c => t.stepExchange x c
  | .lockFinish r, .go =>
    if t.mu = none then
      some { { t with mu := some .kexLoop, writeError := r, sentInitMsg := none }
        |>.resetWriteThresholds with kex := .clear }
    else none
  | .clear, .go =>
    if t.requestKex then some { t with requestKex := false } else some { t with kex := .notify }
  | .notify, .go =>
    some { t with done := some t.writeError, kex := .flush t.pendingPackets }
  -- the stop branch returns with t.mu still locked
  | .notify, .stop => if t.stop then some { t with kex := .returned } else none
  | .flush (p :: todo), .push _ r =>
    some { t.connWrite .app p r with
      writeError := r
      kex := .flush (if r = none then todo else []) }
  | .flush [], .go => some { t with pendingPackets := [], mu := none, kex := .top }
  | .leave, .go => some { t with drain := .select, connClosed := true, kex := .returned }
  | _, _ => none

inductive ReadChoice where
  | go
  | stop
  | packet (p : Packet)
  | fail (e : Err)
  deriving DecidableEq, Repr

def countReadPacket : HandshakeTransport :=
  if 0 < t.readPacketsLeft then { t with readPacketsLeft := t.readPacketsLeft - 1 }
  else t.requestKeyExchange

def countReadBytes (p : Packet) : HandshakeTransport :=
  if 0 < t.readBytesLeft then { t with readBytesLeft := t.readBytesLeft - p.length }
  else t.requestKeyExchange

def afterRead (p : Packet) : ReadPc :=
  if p.tag = msgIgnore ∨ p.tag = msgDebug then .read false else .deliver p

def dispatch (first : Bool) (p : Packet) : ReadPc :=
  if first ∧ p.tag ≠ msgKexInit then
    .fail (.text "ssh: first packet should be msgKexInit")
  else if p.tag ≠ msgKexInit then afterRead p
  else .offer p t.sessionID.isNone

def stepRead (c : ReadChoice) : Option HandshakeTransport :=
  match t.reader, c with
  | .read first, .packet p => some { t with reader := .got first p }
  | .read _, .fail e => some { t with reader := .fail e }
  | .got first p, .go =>
    some { t.countReadPacket.countReadBytes p with reader := t.dispatch first p }
  | .offer p firstKex, .go =>
    if t.startKex = none then
      some { t with startKex := some p, done := none, reader := .await firstKex }
    else none
  | .offer _ _, .stop => if t.stop then some { t with reader := .fail .eof } else none
  | .await firstKex, .go =>
    match t.done with
    | none => none
    | some (some e) => some { t with done := none, reader := .fail e }
    | some none =>
      some { { t with done := none } |>.resetReadThresholds with
        reader := afterRead ⟨if firstKex then msgNewKeys else msgIgnore, []⟩ }
  | .await _, .stop => if t.stop then some { t with reader := .fail .eof } else none
  | .deliver p, .go =>
    if t.incoming.length < chanSize then
      some { t with incoming := t.incoming ++ [p], reader := .read false }
    else none
  | .deliver _, .stop => if t.stop then some { t with reader := .returned } else none
  | .fail e, .go => some { t with readError := some e, incomingClosed := true, reader := .record }
  | .record, .go =>
    if t.mu = none then
      some { (match t.readError with | some e => t.recordWriteError e | none => t) with
        reader := .closeStart }
    else none
  | .closeStart, .go => some { t with startKexClosed := true, reader := .returned }
  | _, _ => none

/-- One step of the draining goroutine; a closed channel keeps yielding nil requests. -/
def stepDrain (stopped : Bool) : Option HandshakeTransport :=
  match t.drain with
  | .off | .returned => none
  | .select =>
    if stopped then if t.stop then some { t with drain := .returned } else none
    else match t.startKex with
      | some _ => some { t with startKex := none, drain := .reply }
      | none => if t.startKexClosed then some t else none
  | .reply =>
    if stopped then if t.stop then some { t with drain := .returned } else none
    else some { t with done := some t.writeError, drain := .select }

inductive Action where
  | call (p : Packet)
  | writer (i : Nat) (r : Option Err)
  | requestKeyExchange
  | kex (c : KexChoice)
  | read (c : ReadChoice)
  | drain (stopped : Bool)
  | receive
  | halt
  deriving DecidableEq, Repr

def step : Action → Option HandshakeTransport
  | .call p => some (t.callWritePacket p)
  | .writer i r => t.stepWriter i r
  | .requestKeyExchange => some t.requestKeyExchange
  | .kex c => t.stepKex c
  | .read c => t.stepRead c
  | .drain stopped => t.stepDrain stopped
  | .receive => match t.incoming with
    | [] => none
    | _ :: rest => some { t with incoming := rest }
  | .halt => some { t with stop := true }

end HandshakeTransport

end XCryptoSsh
