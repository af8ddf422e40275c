import XCryptoSsh.HandshakeWire
import XCryptoSsh.Transport

namespace XCryptoSsh
open Go
set_option autoImplicit true

def Packet.bytes (p : Packet) : Bytes := p.tag :: p.body

structure KeyExchange where
  number : Nat
  clientInit : Packet
  serverInit : Packet
  clientMsg : Packet
  serverMsg : Packet
  deriving DecidableEq

abbrev KeyedCipher := Option KeyExchange

def KeyedCipher.epoch : KeyedCipher → Nat
  | none => 0
  | some k => k.number + 1

structure Transcript where
  ownInit : Packet
  otherInit : Packet
  ownMsg : Packet
  otherMsg : Packet
  deriving DecidableEq

def Transcript.keyExchange (tr : Transcript) (isServer : Bool) (number : Nat) : KeyExchange :=
  if isServer then ⟨number, tr.otherInit, tr.ownInit, tr.otherMsg, tr.ownMsg⟩
  else ⟨number, tr.ownInit, tr.otherInit, tr.ownMsg, tr.otherMsg⟩

/-- A packet on the link, with the cipher and the sequence number it was written with. -/
structure Frame where
  origin : Origin
  packet : Packet
  cipher : KeyedCipher
  seqNum : UInt32
  deriving DecidableEq

def Frame.decrypt (f : Frame) (s : ConnectionState KeyedCipher) : Except Err Bytes :=
  if f.cipher = s.packetCipher ∧ f.seqNum = s.seqNum then .ok f.packet.bytes
  else .error (.text "ssh: MAC failure")

def Frame.connWrite (f : Frame) : ConnWrite := ⟨f.origin, f.packet, none⟩

structure KeyedEnd where
  transport : HandshakeTransport
  reader : ConnectionState KeyedCipher
  writer : ConnectionState KeyedCipher
  exchange : Transcript
  panicked : Bool

namespace KeyedEnd

open HandshakeTransport (Action)

def new (c : HandshakeConfig) : KeyedEnd where
  transport := .new c
  reader := ⟨none, 0, none⟩
  writer := ⟨none, 0, none⟩
  exchange := ⟨⟨0, []⟩, ⟨0, []⟩, ⟨0, []⟩, ⟨0, []⟩⟩
  panicked := false

def observe (t : HandshakeTransport) (tr : Transcript) : Action → Transcript
  | .kex .go => match t.kex, t.sentInitMsg with
    | .check (some other), some own => { tr with ownInit := own, otherInit := other }
    | _, _ => tr
  | .kex (.wrote p _) => match t.kex with
    | .exchange (.kex _) => { tr with ownMsg := p }
    | _ => tr
  | .kex (.packet p) => match t.kex with
    | .exchange (.kex _) => { tr with otherMsg := p }
    | _ => tr
  | _ => tr

def newKey (e : KeyedEnd) : KeyExchange :=
  e.exchange.keyExchange e.transport.config.isServer e.writer.packetCipher.epoch

def prepareKeyChange (e : KeyedEnd) : Option KeyedEnd := do
  let reader ← e.reader.offer (some e.newKey)
  let writer ← e.writer.offer (some e.newKey)
  pure { e with reader := reader, writer := writer }

def prepares (t : HandshakeTransport) (a : Action) : Bool :=
  t.kex = .exchange .prepare ∧ a = .kex .go

def preparing (e : KeyedEnd) (a : Action) : Option KeyedEnd :=
  if prepares e.transport a then e.prepareKeyChange else some e

def write (e : KeyedEnd) (w : ConnWrite) : KeyedEnd × List Frame :=
  match e.writer.writePacket w.packet.bytes with
  | some writer =>
    ({ e with writer := writer }, [⟨w.origin, w.packet, e.writer.packetCipher, e.writer.seqNum⟩])
  | none => ({ e with panicked := true }, [])

def flush (e : KeyedEnd) : List ConnWrite → KeyedEnd × List Frame
  | [] => (e, [])
  | w :: _ => e.write w

def run (e : KeyedEnd) (a : Action) : Option (KeyedEnd × List Frame) := do
  let t ← e.transport.step a
  let e' ← e.preparing a
  pure (flush { e' with transport := t, exchange := observe e.transport e.exchange a }
    (t.sent.drop e.transport.sent.length))

def kexLoopReads (t : HandshakeTransport) : Bool :=
  match t.kex with
  | .exchange .skipGuess | .exchange (.kex (.read :: _)) | .exchange .newKeysIn => true
  | _ => false

def readLoopReads (t : HandshakeTransport) : Bool :=
  match t.reader with
  | .read _ => true
  | _ => false

def reads (t : HandshakeTransport) (kexLoop : Bool) : Bool :=
  if kexLoop then kexLoopReads t else readLoopReads t

def returned (kexLoop : Bool) : Except Err Packet → Action
  | .ok p => if kexLoop then .kex (.packet p) else .read (.packet p)
  | .error e => if kexLoop then .kex (.fail e) else .read (.fail e)

/-- `conn.readPacket` takes the next frame, and goes on to the one after when it is IGNORE or
DEBUG. -/
def receive (e : KeyedEnd) (kexLoop : Bool) (f : Frame) : Option KeyedEnd :=
  if reads e.transport kexLoop then
    let r := e.reader.readPacket (f.decrypt e.reader)
    let e := { e with reader := r.2 }
    if r.1.isOk ∧ (f.packet.tag = msgIgnore ∨ f.packet.tag = msgDebug) then some e
    else
      let a := returned kexLoop (r.1.map fun _ => f.packet)
      (e.transport.step a).map fun t =>
        { e with transport := t, exchange := observe e.transport e.exchange a }
  else none

end KeyedEnd

inductive EndAct where
  | run (a : HandshakeTransport.Action)
  | receive (kexLoop : Bool)
  deriving DecidableEq

def HandshakeTransport.Action.takes : HandshakeTransport.Action → Bool
  | .read (.packet _) | .kex (.packet _) => true
  | _ => false

/-- The end, the frames left for it and the frames it has written; packets come from the link
only. -/
def KeyedEnd.step (e : KeyedEnd) (inbox : List Frame) :
    EndAct → Option (KeyedEnd × List Frame × List Frame)
  | .run a => if a.takes then none else (e.run a).map fun r => (r.1, inbox, r.2)
  | .receive kexLoop => match inbox with
    | [] => none
    | f :: inbox => (e.receive kexLoop f).map fun e => (e, inbox, [])

structure KeyedPair where
  client : KeyedEnd
  server : KeyedEnd
  toServer : List Frame
  toClient : List Frame

namespace KeyedPair

inductive Act where
  | client (a : EndAct)
  | server (a : EndAct)
  deriving DecidableEq

def new (clientThreshold serverThreshold : Nat) : KeyedPair where
  client := .new ⟨clientThreshold, false⟩
  server := .new ⟨serverThreshold, true⟩
  toServer := []
  toClient := []

def step (p : KeyedPair) : Act → Option KeyedPair
  | .client a => (p.client.step p.toClient a).map fun (e, inbox, out) =>
      { p with client := e, toClient := inbox, toServer := p.toServer ++ out }
  | .server a => (p.server.step p.toServer a).map fun (e, inbox, out) =>
      { p with server := e, toServer := inbox, toClient := p.toClient ++ out }

end KeyedPair

end XCryptoSsh
