import XCryptoSsh.Transport

namespace XCryptoSsh
open Go Call Transport
set_option autoImplicit true

structure KexPrimitives where
  elliptic : Elliptic
  sha1 : Hash
  sha256 : Hash
  ecHash : Curve → Hash
  prime : Curve → Int
  isOnCurve : Curve → Int → Int → Bool
  scalarBaseMult : Curve → Nat → Int × Int
  scalarMult : Curve → Int → Int → Nat → Int
  x25519Base : Bytes → Bytes
  x25519 : Bytes → Bytes → Bytes

structure KexRandom where
  exponent : Nat
  scalar : Nat
  priv : Bytes

structure HostKexResult extends KexResult where
  hostKey : Bytes
  signature : Bytes

structure HandshakeMagics where
  clientVersion : Bytes
  serverVersion : Bytes
  clientKexInit : Bytes
  serverKexInit : Bytes

def HandshakeMagics.write (m : HandshakeMagics) : Bytes :=
  encodeString m.clientVersion ++ encodeString m.serverVersion ++ encodeString m.clientKexInit ++
    encodeString m.serverKexInit

structure Signer where
  publicKey : PublicKey
  sign : Bytes → Except Err Signature

def kexDHInitMsg : StructType := ⟨"kexDHInitMsg", [30], [⟨"X", .bigInt⟩], by simp, by simp⟩

def kexDHReplyMsg : StructType :=
  ⟨"kexDHReplyMsg", [31], [⟨"HostKey", .bytes⟩, ⟨"Y", .bigInt⟩, ⟨"Signature", .bytes⟩], by simp,
    by simp⟩

def kexECDHInitMsg : StructType :=
  ⟨"kexECDHInitMsg", [30], [⟨"ClientPubKey", .bytes⟩], by simp, by simp⟩

def kexECDHReplyMsg : StructType :=
  ⟨"kexECDHReplyMsg", [31], [⟨"HostKey", .bytes⟩, ⟨"EphemeralPubKey", .bytes⟩,
    ⟨"Signature", .bytes⟩], by simp, by simp⟩

/-- The bytes of a big integer on the wire; `none` when `marshalInt` panics. -/
def writeInt (n : Int) : Option Bytes := marshalInt (List.replicate (intLength n) 0) n

/-- The result of an exchange, with the hash over the magics, the host key, the two public values
and the shared secret. -/
def kexResult (hash : Hash) (magics : HandshakeMagics) (hostKey signature clientPub serverPub
    secret : Bytes) : HostKexResult where
  H := hash.sum (magics.write ++ encodeString hostKey ++ clientPub ++ serverPub ++ secret)
  K := secret
  hash := hash
  sessionID := []
  hostKey := hostKey
  signature := signature

section Methods

variable {κ : Type} (P : KexPrimitives) (rand : KexRandom) (magics : HandshakeMagics)

def clientRound (init : Option Bytes) (finish : Bytes → Result Err HostKexResult) :
    Call Err (Transport κ) HostKexResult := do
  let init ← inRange init
  writePacket init
  let packet ← readPacket
  ofResult (finish packet)

def serverRound (answer : Bytes → Result Err (Bytes × HostKexResult)) :
    Call Err (Transport κ) HostKexResult := do
  let packet ← readPacket
  let r ← ofResult (answer packet)
  writePacket r.1
  pure r.2

def signAndMarshal (k : Signer) (data : Bytes) : Result Err Bytes := do
  let sig ← .ofExcept (k.sign data)
  .ofOption (marshal signatureWire (sig.format, sig.blob, ()))

def diffieHellman (p : Nat) (theirPublic : Int) (myPrivate : Nat) : Except Err Int :=
  if theirPublic ≤ 1 ∨ (p : Int) - 1 ≤ theirPublic then
    .error (.text "ssh: DH parameter out of bounds")
  else .ok (theirPublic.toNat ^ myPrivate % p : Nat)

def dhGroupClient (g p : Nat) : Call Err (Transport κ) HostKexResult :=
  let x : Int := (g ^ rand.exponent % p : Nat)
  clientRound (marshal kexDHInitMsg (x, ())) fun packet => do
    let (hostKey, y, signature, _) ← .ofExcept (unmarshal kexDHReplyMsg packet)
    let k ← .ofExcept (diffieHellman p y rand.exponent)
    let clientPub ← .ofOption (writeInt x)
    let serverPub ← .ofOption (writeInt y)
    let secret ← .ofOption (writeInt k)
    pure (kexResult P.sha1 magics hostKey signature clientPub serverPub secret)

def dhGroupServer (g p : Nat) (priv : Signer) : Call Err (Transport κ) HostKexResult :=
  serverRound fun packet => do
    let (x, _) ← .ofExcept (unmarshal kexDHInitMsg packet)
    let y : Int := (g ^ rand.exponent % p : Nat)
    let k ← .ofExcept (diffieHellman p x rand.exponent)
    let hostKey ← .ofOption (priv.publicKey.marshal P.elliptic)
    let clientPub ← .ofOption (writeInt x)
    let serverPub ← .ofOption (writeInt y)
    let secret ← .ofOption (writeInt k)
    let result := kexResult P.sha1 magics hostKey [] clientPub serverPub secret
    let sig ← signAndMarshal priv result.H
    let reply ← .ofOption (marshal kexDHReplyMsg (hostKey, y, sig, ()))
    pure (reply, { result with signature := sig })

def validateECPublicKey (curve : Curve) (x y : Int) : Bool :=
  !(x == 0 && y == 0) && decide (x < P.prime curve) && decide (y < P.prime curve) &&
    P.isOnCurve curve x y

def unmarshalECKey (curve : Curve) (pubkey : Bytes) : Except Err (Int × Int) :=
  match P.elliptic.unmarshal curve pubkey with
  | none => .error (.text "ssh: elliptic.Unmarshal failure")
  | some (x, y) =>
    if validateECPublicKey P curve x y then .ok (x, y)
    else .error (.text "ssh: public key not on curve")

def ephemeralKey (curve : Curve) : Bytes :=
  let (x, y) := P.scalarBaseMult curve rand.scalar
  P.elliptic.marshal curve x y

def ecdhClient (curve : Curve) : Call Err (Transport κ) HostKexResult :=
  let clientPub := ephemeralKey P rand curve
  clientRound (marshal kexECDHInitMsg (clientPub, ())) fun packet => do
    let (hostKey, ephemeral, signature, _) ← .ofExcept (unmarshal kexECDHReplyMsg packet)
    let (x, y) ← .ofExcept (unmarshalECKey P curve ephemeral)
    let secret ← .ofOption (writeInt (P.scalarMult curve x y rand.scalar))
    pure (kexResult (P.ecHash curve) magics hostKey signature (encodeString clientPub)
      (encodeString ephemeral) secret)

def ecdhServer (curve : Curve) (priv : Signer) : Call Err (Transport κ) HostKexResult :=
  serverRound fun packet => do
    let (clientPub, _) ← .ofExcept (unmarshal kexECDHInitMsg packet)
    let (x, y) ← .ofExcept (unmarshalECKey P curve clientPub)
    let hostKey ← .ofOption (priv.publicKey.marshal P.elliptic)
    let ephemeral := ephemeralKey P rand curve
    let secret ← .ofOption (writeInt (P.scalarMult curve x y rand.scalar))
    let result := kexResult (P.ecHash curve) magics hostKey [] (encodeString clientPub)
      (encodeString ephemeral) secret
    let sig ← signAndMarshal priv result.H
    let reply ← .ofOption (marshal kexECDHReplyMsg (hostKey, ephemeral, sig, ()))
    pure (reply, { result with signature := sig })

def curve25519Secret (theirPublic : Bytes) : Except Err Bytes :=
  if theirPublic.length ≠ 32 then
    .error (.text "ssh: peer's curve25519 public value has wrong length")
  else
    let secret := P.x25519 rand.priv theirPublic
    if secret = List.replicate 32 0 then
      .error (.text "ssh: peer's curve25519 public value has wrong order")
    else .ok secret

def curve25519Client : Call Err (Transport κ) HostKexResult :=
  let clientPub := P.x25519Base rand.priv
  clientRound (marshal kexECDHInitMsg (clientPub, ())) fun packet => do
    let (hostKey, ephemeral, signature, _) ← .ofExcept (unmarshal kexECDHReplyMsg packet)
    let k ← .ofExcept (curve25519Secret P rand ephemeral)
    let secret ← .ofOption (writeInt (setBytes k))
    pure (kexResult P.sha256 magics hostKey signature (encodeString clientPub)
      (encodeString ephemeral) secret)

def curve25519Server (priv : Signer) : Call Err (Transport κ) HostKexResult :=
  serverRound fun packet => do
    let (clientPub, _) ← .ofExcept (unmarshal kexECDHInitMsg packet)
    let k ← .ofExcept (curve25519Secret P rand clientPub)
    let ephemeral := P.x25519Base rand.priv
    let hostKey ← .ofOption (priv.publicKey.marshal P.elliptic)
    let secret ← .ofOption (writeInt (setBytes k))
    let result := kexResult P.sha256 magics hostKey [] (encodeString clientPub)
      (encodeString ephemeral) secret
    let sig ← signAndMarshal priv result.H
    let reply ← .ofOption (marshal kexECDHReplyMsg (hostKey, ephemeral, sig, ()))
    pure (reply, { result with signature := sig })

inductive KexAlgorithm where
  | dhGroup (g p : Nat)
  | ecdh (curve : Curve)
  | curve25519sha256

def dhGroup1P : Nat := 0xFFFFFFFFFFFFFFFFC90FDAA22168C234C4C6628B80DC1CD129024E088A67CC74020BBEA63B139B22514A08798E3404DDEF9519B3CD3A431B302B0A6DF25F14374FE1356D6D51C245E485B576625E7EC6F44C42E9A637ED6B0BFF5CB6F406B7EDEE386BFB5A899FA5AE9F24117C4B1FE649286651ECE65381FFFFFFFFFFFFFFFF

def dhGroup14P : Nat := 0xFFFFFFFFFFFFFFFFC90FDAA22168C234C4C6628B80DC1CD129024E088A67CC74020BBEA63B139B22514A08798E3404DDEF9519B3CD3A431B302B0A6DF25F14374FE1356D6D51C245E485B576625E7EC6F44C42E9A637ED6B0BFF5CB6F406B7EDEE386BFB5A899FA5AE9F24117C4B1FE649286651ECE45B3DC2007CB8A163BF0598DA48361C55D39A69163FA8FD24CF5F83655D23DCA3AD961C62F356208552BB9ED529077096966D670C354E4ABC9804F1746C08CA18217C32905E462E36CE3BE39E772C180E86039B2783A2EC07A28FB5C55DF06F4C52C9DE2BCBF6955817183995497CEA956AE515D2261898FA051015728E5A8AACAA68FFFFFFFFFFFFFFFF

def kexAlgoMap : List (String × KexAlgorithm) :=
  [("diffie-hellman-group1-sha1", .dhGroup 2 dhGroup1P),
    ("diffie-hellman-group14-sha1", .dhGroup 2 dhGroup14P),
    ("ecdh-sha2-nistp521", .ecdh .p521), ("ecdh-sha2-nistp384", .ecdh .p384),
    ("ecdh-sha2-nistp256", .ecdh .p256), ("curve25519-sha256@libssh.org", .curve25519sha256)]

def KexAlgorithm.client : KexAlgorithm → Call Err (Transport κ) HostKexResult
  | .dhGroup g p => dhGroupClient P rand magics g p
  | .ecdh curve => ecdhClient P rand magics curve
  | .curve25519sha256 => curve25519Client P rand magics

def KexAlgorithm.server (priv : Signer) : KexAlgorithm → Call Err (Transport κ) HostKexResult
  | .dhGroup g p => dhGroupServer P rand magics g p priv
  | .ecdh curve => ecdhServer P rand magics curve priv
  | .curve25519sha256 => curve25519Server P rand magics priv

end Methods

def kexInitMsg : StructType where
  name := "kexInitMsg"
  tags := [20]
  fields := [⟨"Cookie", .array 16⟩, ⟨"KexAlgos", .names⟩, ⟨"ServerHostKeyAlgos", .names⟩,
    ⟨"CiphersClientServer", .names⟩, ⟨"CiphersServerClient", .names⟩,
    ⟨"MACsClientServer", .names⟩, ⟨"MACsServerClient", .names⟩,
    ⟨"CompressionClientServer", .names⟩, ⟨"CompressionServerClient", .names⟩,
    ⟨"LanguagesClientServer", .names⟩, ⟨"LanguagesServerClient", .names⟩,
    ⟨"FirstKexFollows", .bool⟩, ⟨"Reserved", .uint32⟩]
  fields_ne := by simp
  rest_last := by simp

def kexInitOffers (m : Vals kexInitMsg.fields) : KexInitMsg :=
  let (_, kexAlgos, hostKeyAlgos, ciphersCS, ciphersSC, macsCS, macsSC, compressionCS,
    compressionSC, _) := m
  let names (l : List Bytes) : List String := l.map showBytes
  ⟨names kexAlgos, names hostKeyAlgos, names ciphersCS, names ciphersSC, names macsCS,
    names macsSC, names compressionCS, names compressionSC⟩

def firstKexFollows (m : Vals kexInitMsg.fields) : Bool := m.2.2.2.2.2.2.2.2.2.2.2.1

/-- The fields of a `handshakeTransport` that a key exchange reads; a server is one with host
keys. -/
structure Handshake where
  clientVersion : Bytes
  serverVersion : Bytes
  hostKeys : List Signer
  /-- The error of the callback for the address of this connection. -/
  hostKeyCallback : PublicKey → Option Err
  sentInitMsg : Vals kexInitMsg.fields
  sentInitPacket : Bytes
  sessionID : Option Bytes
  rand : KexRandom

/-- The primitives; `newCipher` stands for `newPacketCipher`. -/
structure KexEnv (κ : Type) where
  prims : KexPrimitives
  verifiers : Verifiers
  newCipher : CipherSpec → KexResult → Except Err κ

namespace Handshake

variable {κ : Type} (env : KexEnv κ) (h : Handshake)

def isServer : Bool := !h.hostKeys.isEmpty

def magics (otherInitPacket : Bytes) : HandshakeMagics :=
  if h.isServer then ⟨h.clientVersion, h.serverVersion, otherInitPacket, h.sentInitPacket⟩
  else ⟨h.clientVersion, h.serverVersion, h.sentInitPacket, otherInitPacket⟩

/-- The last of the host keys of the agreed type. -/
def hostKey (algs : Algorithms) : Option Signer :=
  h.hostKeys.foldl (fun key k => if algs.hostKey = k.publicKey.type then some k else key) none

/-- A missing key is a nil pointer dereference in `kex.Server`. -/
def server (kex : KexAlgorithm) (algs : Algorithms) (magics : HandshakeMagics) :
    Call Err (Transport κ) HostKexResult := do
  let key ← inRange (h.hostKey algs)
  kex.server env.prims h.rand magics key

def verifyHostKeySignature (hostKey : PublicKey) (result : HostKexResult) : Result Err Unit :=
  match parseSignatureBody result.signature with
  | some (sig, []) => hostKey.verify env.verifiers result.H sig
  | _ => .error (.text "ssh: signature parse error")

def ofError : Option Err → Call Err σ Unit
  | some e => fail e
  | none => pure ()

/-- `ParsePublicKey`, the check of the signature and the callback, in this order. -/
def checkHostKey (result : HostKexResult) : Call Err σ Unit := do
  let key ← ofExcept (parsePublicKey env.prims.elliptic result.hostKey)
  ofResult (verifyHostKeySignature env key result)
  ofError (h.hostKeyCallback key)

def client (kex : KexAlgorithm) (magics : HandshakeMagics) :
    Call Err (Transport κ) HostKexResult := do
  let result ← kex.client env.prims h.rand magics
  h.checkHostKey env result
  pure result

/-- A packet that the peer sent on a wrong guess is read and dropped. -/
def skipGuess (wrong : Bool) : Call Err (Transport κ) Unit :=
  if wrong then do
    let _ ← readPacket
    pure ()
  else pure ()

def wrongGuess (otherInit : Vals kexInitMsg.fields) : Bool :=
  let own := kexInitOffers h.sentInitMsg
  let other := kexInitOffers otherInit
  firstKexFollows otherInit && (own.kexAlgos.head? != other.kexAlgos.head? ||
    own.serverHostKeyAlgos.head? != other.serverHostKeyAlgos.head?)

/-- The part of `enterKeyExchange` up to the result of `client` or `server`. -/
def exchange (otherInitPacket : Bytes) : Call Err (Transport κ) (Algorithms × HostKexResult) := do
  let otherInit ← ofExcept (unmarshal kexInitMsg otherInitPacket)
  let algs ← ofExcept (agreedAlgorithms h.isServer (kexInitOffers h.sentInitMsg)
    (kexInitOffers otherInit))
  skipGuess (h.wrongGuess otherInit)
  let kex ← orFail (kexAlgoMap.lookup algs.kex)
    (.text ("ssh: unexpected key exchange algorithm " ++ algs.kex))
  let result ← if h.isServer then h.server env kex algs (h.magics otherInitPacket)
    else h.client env kex (h.magics otherInitPacket)
  pure (algs, { result with sessionID := h.sessionID.getD result.H })

def changeKeys (algs : Algorithms) (result : KexResult) : Call Err (Transport κ) Unit := do
  Transport.prepareKeyChange env.newCipher algs result
  Transport.writePacket [msgNewKeys]
  let packet ← Transport.readPacket
  failIf (packet.head? ≠ some msgNewKeys) (unexpectedMessageError msgNewKeys (packet.headD 0))

/-- Also returns the algorithms and the result, which the source keeps in the transport. -/
def enterKeyExchange (otherInitPacket : Bytes) :
    Call Err (Transport κ) (Algorithms × HostKexResult) := do
  let r ← h.exchange env otherInitPacket
  changeKeys env r.1 r.2.toKexResult
  pure r

/-- The first key exchange: `sendKexInit`, the first packet of `readOnePacket`,
`enterKeyExchange`. -/
def firstKeyExchange : Call Err (Transport κ) (Algorithms × HostKexResult) := do
  writePacket h.sentInitPacket
  let packet ← readPacket
  failIf (packet.head? ≠ some msgKexInit) (.text "ssh: first packet should be msgKexInit")
  h.enterKeyExchange env packet

end Handshake
end XCryptoSsh
