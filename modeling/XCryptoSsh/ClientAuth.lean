import XCryptoSsh.ServerAuth

namespace XCryptoSsh
open Go Call
set_option autoImplicit true

def msgUserAuthFailure : UInt8 := 51
def msgUserAuthBanner : UInt8 := 53
def msgUserAuthPubKeyOk : UInt8 := 60

/-- The signature is left out of a query, so it is the rest. -/
def publickeyAuthMsg : StructType where
  name := "publickeyAuthMsg"
  tags := [50]
  fields := [⟨"User", .string⟩, ⟨"Service", .string⟩, ⟨"Method", .string⟩, ⟨"HasSig", .bool⟩,
    ⟨"Algoname", .string⟩, ⟨"PubKey", .bytes⟩, ⟨"Sig", .rest⟩]
  fields_ne := by simp
  rest_last := by simp

namespace PacketConn

def readPacket : Call Err PacketConn Bytes := fun c =>
  match c.incoming with
  | [] => (.error .eof, c)
  | r :: incoming => ofExcept r { c with incoming := incoming }

def writePacket (packet : Bytes) : Call Err PacketConn Unit := fun c =>
  match c.writeError c.outgoing.length with
  | some e => (.error e, c)
  | none => (.ok (), { c with outgoing := c.outgoing ++ [packet] })

end PacketConn

open PacketConn (readPacket writePacket)

/-- The loop of `confirmKeyAck` for at most that many packets. -/
def confirmKeyAckLoop (algoname pubKey : Bytes) : Nat → Call Err PacketConn Bool
  | 0 => fail .eof
  | n + 1 => do
    let packet ← readPacket
    let tag ← inRange packet.head?
    if tag = msgUserAuthBanner then confirmKeyAckLoop algoname pubKey n
    else if tag = msgUserAuthPubKeyOk then do
      let msg ← ofExcept (unmarshal userAuthPubKeyOkMsg packet)
      let algo : Bytes := msg.1
      let key : Bytes := msg.2.1
      pure (decide (algo = algoname ∧ key = pubKey))
    else if tag = msgUserAuthFailure then pure false
    else fail (unexpectedMessageError msgUserAuthSuccess tag)

def confirmKeyAck (algoname pubKey : Bytes) : Call Err PacketConn Bool := fun c =>
  confirmKeyAckLoop algoname pubKey (c.incoming.length + 1) c

def handleAuthResponseLoop : Nat → Call Err PacketConn (Bool × List Bytes)
  | 0 => fail .eof
  | n + 1 => do
    let packet ← readPacket
    let tag ← inRange packet.head?
    if tag = msgUserAuthBanner then handleAuthResponseLoop n
    else if tag = msgUserAuthFailure then do
      let (methods, _) ← ofExcept (unmarshal userAuthFailureMsg packet)
      pure (false, methods)
    else if tag = msgUserAuthSuccess then pure (true, [])
    else fail (unexpectedMessageError msgUserAuthSuccess tag)

def handleAuthResponse : Call Err PacketConn (Bool × List Bytes) := fun c =>
  handleAuthResponseLoop (c.incoming.length + 1) c

def queryPacket (user algoname pubKey : Bytes) : Option Bytes :=
  marshal publickeyAuthMsg (user, serviceSSH, ascii "publickey", false, algoname, pubKey, [], ())

def signedPacket (sign : Bytes → Except Err Signature) (session user algoname pubKey : Bytes) :
    Result Err Bytes := do
  let data ← .ofOption (buildDataSignedForAuth session ⟨user, serviceSSH, ascii "publickey", []⟩
    algoname pubKey)
  let sig ← .ofExcept (sign data)
  let s ← .ofOption (marshal signatureWire (sig.format, sig.blob, ()))
  .ofOption (marshal publickeyAuthMsg
    (user, serviceSSH, ascii "publickey", true, algoname, pubKey, encodeString s, ()))

section Auth

variable (E : Elliptic) (session user : Bytes)

def validateKey (key : PublicKey) : Call Err PacketConn Bool := do
  let pubKey ← inRange (key.marshal E)
  let packet ← inRange (queryPacket user (ascii key.type) pubKey)
  writePacket packet
  confirmKeyAck (ascii key.type) pubKey

/-- `auth` of a `publicKeyCallback`, from the loop over the signers on. -/
def publicKeyAuth (methods : List Bytes) : List Signer → Call Err PacketConn (Bool × List Bytes)
  | [] => pure (false, methods)
  | signer :: signers => do
    let ok ← validateKey E user signer.publicKey
    if ok then do
      let pubKey ← inRange (signer.publicKey.marshal E)
      let packet ← ofResult
        (signedPacket signer.sign session user (ascii signer.publicKey.type) pubKey)
      writePacket packet
      let (success, methods) ← handleAuthResponse
      -- without "publickey" among the methods no other key is tried
      if success || !methods.contains (ascii "publickey") then pure (success, methods)
      else publicKeyAuth methods signers
    else publicKeyAuth methods signers

end Auth

end XCryptoSsh
