import XCryptoSsh.Basic
import XCryptoSsh.Crypto

namespace XCryptoSsh
open Go Crypto Call Slice
set_option autoImplicit true

instance : ReadError Err := ⟨fun e => if e = .eof then .unexpectedEOF else e⟩

def packetSizeMultiple : Nat := 16
def prefixLen : Nat := 5

def verifyMac (mac : Option Mac) (input tag : Bytes) (e : Err) : Call Err σ Unit :=
  match mac with
  | some m => failIf (m.sum input ≠ tag) e
  | none => pure ()

/-- `cipher.Stream`: nothing before the first key exchange, then a key stream. -/
inductive Stream where
  | noneCipher
  | keyed (keystream : Nat → UInt8) (pos : Nat)

def Stream.xorKeyStream : Stream → Bytes → Bytes × Stream
  | .noneCipher, src => (src, .noneCipher)
  | .keyed ks pos, src => (xorAt ks pos src, .keyed ks (pos + src.length))

/-- The scratch arrays are left out: each call writes them before it reads them. -/
structure StreamPacketCipher where
  mac : Option Mac
  cipher : Stream
  etm : Bool
  packetData : Slice

namespace StreamPacketCipher

def encryptThenMac (s : StreamPacketCipher) : Bool := s.mac.isSome && s.etm

def macSize (s : StreamPacketCipher) : Nat := (s.mac.map fun m => u32 m.size).getD 0

def xorKeyStream (src : Bytes) : Call Err (StreamPacketCipher × ρ) Bytes := fun s =>
  let r := s.1.cipher.xorKeyStream src
  (.ok r.1, { s.1 with cipher := r.2 }, s.2)

/-- EtM modes leave the packet length in the clear. -/
def xorPrefix (pre : Bytes) : Call Err (StreamPacketCipher × ρ) Bytes := do
  let s ← self
  if s.encryptThenMac then do
    let b ← xorKeyStream (pre.drop 4)
    pure (pre.take 4 ++ b)
  else xorKeyStream pre

/-- Gives `packetData` the length `size`, in the array it has when that is large enough. -/
def resize (size : Nat) : Call Err (StreamPacketCipher × ρ) Unit := do
  let s ← self
  if u32 s.packetData.cap < size then
    update fun s => { s with packetData := make size }
  else do
    let b ← inRange (s.packetData.upTo size)
    update fun s => { s with packetData := b }

/-- The second part of `readPacket`, after the prefix; `macHead` is in the MAC already. -/
def readBody (macHead : Bytes) (length paddingLength : Nat) :
    Call Err (StreamPacketCipher × Reader Err) Bytes := do
  failIf (length ≤ u32 (paddingLength + 1))
    (.text "ssh: invalid packet length, packet too small")
  failIf (maxPacket < length) (.text "ssh: invalid packet length, packet too large")
  let s ← self
  let size := u32 (subU32 length 1 + s.macSize)
  resize size
  readInto (fun bs s => { s with packetData := s.packetData.store 0 bs }) size
  let s ← self
  let mac ← inRange (s.packetData.downFrom (subU32 length 1))
  let data ← inRange (s.packetData.upTo (subU32 length 1))
  let plain ← xorKeyStream data.data
  update fun s => { s with packetData := s.packetData.store 0 plain }
  verifyMac s.mac (macHead ++ if s.etm then data.data else plain) mac.data
    (.text "ssh: MAC failure")
  let s ← self
  let packet ← inRange (s.packetData.upTo (subU32 (subU32 length paddingLength) 1))
  pure packet.data

def readPacket (seqNum : Nat) : Call Err (StreamPacketCipher × Reader Err) Bytes := do
  let raw ← readFull prefixLen
  let pre ← xorPrefix raw
  let s ← self
  let macHead := putUint32 seqNum ++ if s.etm then pre.take 4 ++ raw.drop 4 else pre
  readBody macHead (bigEndianUint32 (pre.take 4)) (pre.getD 4 0).toNat

def paddingLength (s : StreamPacketCipher) (n : Nat) : Nat :=
  let aadlen := if s.encryptThenMac then 4 else 0
  let p := packetSizeMultiple - (prefixLen + n - aadlen) % packetSizeMultiple
  if p < 4 then p + packetSizeMultiple else p

def writeMac (mac : Option Mac) (input : Bytes) : Call Err (C × Sink Err) Unit :=
  match mac with
  | some m => write (m.sum input)
  | none => pure ()

def writePacket (seqNum : Nat) (packet : Bytes) :
    Call Err (StreamPacketCipher × Sink Err) Unit := do
  failIf (maxPacket < packet.length) (.text "ssh: packet too large")
  let s ← self
  let paddingLength := s.paddingLength packet.length
  let length := packet.length + 1 + paddingLength
  let pre := putUint32 (u32 length) ++ [UInt8.ofNat paddingLength]
  let _ ← inRange ((make (2 * packetSizeMultiple)).upTo paddingLength)
  let padding ← readRand paddingLength
  let pre' ← xorPrefix pre
  let packet' ← xorKeyStream packet
  let padding' ← xorKeyStream padding
  write pre'
  write packet'
  write padding'
  writeMac s.mac (putUint32 seqNum ++
    if s.etm then pre' ++ (packet' ++ padding') else pre ++ (packet ++ padding))

end StreamPacketCipher

def gcmTagSize : Nat := 16

structure GcmCipher where
  aead : Aead
  iv : Bytes
  buf : Slice

namespace GcmCipher

def incFrom : List Nat → Bytes → Option Bytes
  | [], iv => some iv
  | i :: is, iv => iv[i]?.bind fun b =>
    if b + 1 ≠ 0 then some (iv.set i (b + 1)) else incFrom is (iv.set i (b + 1))

def incIV : Call Err (GcmCipher × ρ) Unit := do
  let c ← self
  let iv ← inRange (incFrom [11, 10, 9, 8, 7, 6, 5, 4] c.iv)
  update fun c => { c with iv := iv }

/-- `aead.Open`, which panics on a nonce of the wrong length. -/
def openBuf (c : GcmCipher) (additional : Bytes) : Option (Option Bytes) :=
  if c.iv.length = c.aead.nonceSize then some (c.aead.openBytes c.iv c.buf.data additional)
  else none

/-- `aead.Seal`, which panics on a nonce of the wrong length. -/
def sealBuf (c : GcmCipher) (additional : Bytes) : Option Bytes :=
  if c.iv.length = c.aead.nonceSize then some (c.aead.sealBytes c.iv c.buf.data additional)
  else none

def resize (size : Nat) : Call Err (GcmCipher × ρ) Unit := do
  let c ← self
  if c.buf.cap < size then
    update fun c => { c with buf := make size }
  else do
    let b ← inRange (c.buf.upTo size)
    update fun c => { c with buf := b }

/-- The first half of `readPacket`: the length field and the authenticated plaintext. -/
def readPlain : Call Err (GcmCipher × Reader Err) (Nat × Slice) := do
  let pre ← readFull 4
  let length := bigEndianUint32 pre
  failIf (maxPacket < length) (.text "ssh: max packet length exceeded.")
  resize (u32 (length + gcmTagSize))
  readInto (fun bs c => { c with buf := c.buf.store 0 bs }) (u32 (length + gcmTagSize))
  let c ← self
  let opened ← inRange (c.openBuf pre)
  let opened ← orFail opened (.text "cipher: message authentication failed")
  update fun c => { c with buf := c.buf.store 0 opened }
  incIV
  let c ← self
  let plain ← inRange (c.buf.upTo opened.length)
  pure (length, plain)

/-- The second half of `readPacket`: the packet without its padding. -/
def unpad (length : Nat) (plain : Slice) : Call Err σ Bytes := do
  let padding ← inRange (plain.index 0)
  failIf (padding < 4) (.text ("ssh: illegal padding " ++ toString padding.toNat))
  failIf (plain.len ≤ (padding + 1).toNat)
    (.text ("ssh: padding " ++ toString padding.toNat ++ " too large"))
  let packet ← inRange (plain.between 1 (subU32 length padding.toNat))
  pure packet.data

def readPacket (_seqNum : Nat) : Call Err (GcmCipher × Reader Err) Bytes := do
  let (length, plain) ← readPlain
  unpad length plain

def paddingLength (n : Nat) : UInt8 :=
  let p := UInt8.ofNat (packetSizeMultiple - (1 + n) % packetSizeMultiple)
  if p < 4 then p + UInt8.ofNat packetSizeMultiple else p

def writePacket (_seqNum : Nat) (packet : Bytes) : Call Err (GcmCipher × Sink Err) Unit := do
  let padding := paddingLength packet.length
  let length := u32 (packet.length + padding.toNat + 1)
  let pre := putUint32 length
  write pre
  resize length
  let c ← self
  let _ ← inRange (c.buf.index 0)
  let p ← inRange (c.buf.downFrom 1)
  let rest ← inRange (c.buf.downFrom (1 + packet.length))
  update fun c => { c with buf := c.buf.store 0 (padding :: packet.take p.len) }
  let random ← readRand rest.len
  update fun c => { c with buf := c.buf.store (1 + packet.length) random }
  let c ← self
  let sealed ← inRange (c.sealBuf pre)
  let empty ← inRange (c.buf.upTo 0)
  update fun c => { c with buf := empty.append sealed }
  let c ← self
  write c.buf.data
  incIV

end GcmCipher

def maxUInt32 (a b : Nat) : Nat := if b < a then u32 a else u32 b

def cbcMinPacketSizeMultiple : Nat := 8
def cbcMinPacketSize : Nat := 16
def cbcMinPaddingSize : Nat := 4

structure CbcCipher where
  mac : Option Mac
  macSize : Nat
  decrypter : CbcMode
  encrypter : CbcMode
  packetData : Slice
  oracleCamouflage : Nat

namespace CbcCipher

/-- `c.decrypter.CryptBlocks` in place on `c.packetData[i:j]`. -/
def decryptBetween (i j : Nat) : Call Err (CbcCipher × ρ) Unit := do
  let c ← self
  let src ← inRange (c.packetData.between i j)
  let r ← inRange (c.decrypter.decrypt src.data)
  update fun c => { c with packetData := c.packetData.store i r.1, decrypter := r.2 }

/-- Room for the whole packet; a new array keeps the first block. -/
def resize (size : Nat) (firstBlock : Bytes) : Call Err (CbcCipher × ρ) Unit := do
  let c ← self
  if u32 c.packetData.cap < size then
    update fun c => { c with packetData := (make size).store 0 (firstBlock.take size) }
  else do
    let b ← inRange (c.packetData.upTo size)
    update fun c => { c with packetData := b }

def firstBlockLength (c : CbcCipher) : Nat :=
  u32 ((prefixLen + c.decrypter.block.size - 1) / c.decrypter.block.size * c.decrypter.block.size)

def checkLengths (blockSize length paddingLength : Nat) : Call Err (CbcCipher × ρ) Unit := do
  failIf (maxPacket < length) (.cbcError "ssh: packet too large")
  failIf (u32 (length + 4) < maxUInt32 cbcMinPacketSize blockSize)
    (.cbcError "ssh: packet too small")
  failIf (u32 (length + 4) % maxUInt32 cbcMinPacketSizeMultiple blockSize ≠ 0)
    (.cbcError "ssh: invalid packet length multiple")
  failIf (paddingLength < cbcMinPaddingSize ∨ length ≤ u32 (paddingLength + 1))
    (.cbcError "ssh: invalid packet length")

/-- The first part of `readPacketLeaky`: the first block, decrypted in place. -/
def readFirstBlock : Call Err (CbcCipher × Reader Err) Slice := do
  let c ← self
  let firstBlockLength := c.firstBlockLength
  let _ ← inRange (c.packetData.upTo firstBlockLength)
  readInto (fun bs c => { c with packetData := c.packetData.store 0 bs }) firstBlockLength
  update fun c =>
    { c with oracleCamouflage := subU32 (u32 (maxPacket + 4 + c.macSize)) firstBlockLength }
  decryptBetween 0 firstBlockLength
  let c ← self
  inRange (c.packetData.upTo firstBlockLength)

/-- The last part of `readPacketLeaky`: decrypts what follows the first block, checks the MAC
and cuts the packet out. -/
def openRest (seqNum firstBlockLength macStart paddingStart : Nat) :
    Call Err (CbcCipher × Reader Err) Bytes := do
  decryptBetween firstBlockLength macStart
  let c ← self
  let mac ← inRange (c.packetData.downFrom macStart)
  let body ← inRange (c.packetData.upTo macStart)
  verifyMac c.mac (putUint32 seqNum ++ body.data) mac.data (.cbcError "ssh: MAC failure")
  let packet ← inRange (c.packetData.between prefixLen paddingStart)
  pure packet.data

def readRest (seqNum : Nat) (firstBlock : Slice) (length paddingLength : Nat) :
    Call Err (CbcCipher × Reader Err) Bytes := do
  let macStart := u32 (4 + length)
  let paddingStart := subU32 macStart paddingLength
  let c ← self
  resize (u32 (macStart + c.macSize)) firstBlock.data
  let c ← self
  let rest ← inRange (c.packetData.downFrom firstBlock.len)
  readInto (fun bs c => { c with packetData := c.packetData.store firstBlock.len bs }) rest.len
  update fun c => { c with oracleCamouflage := subU32 c.oracleCamouflage (u32 rest.len) }
  openRest seqNum firstBlock.len macStart paddingStart

def readPacketLeaky (seqNum : Nat) : Call Err (CbcCipher × Reader Err) Bytes := do
  let c ← self
  let firstBlock ← readFirstBlock
  let lengthBytes ← inRange (firstBlock.upTo 4)
  let length := bigEndianUint32 lengthBytes.data
  let padding ← inRange (firstBlock.index 4)
  checkLengths c.decrypter.block.size length padding.toNat
  readRest seqNum firstBlock length padding.toNat

/-- After a verification error a fixed amount of data is read, to hide which check failed. -/
def readPacket (seqNum : Nat) : Call Err (CbcCipher × Reader Err) Bytes := fun s =>
  match readPacketLeaky seqNum s with
  | (.error (.cbcError t), c, r) => (.error (.cbcError t), c, r.discard c.oracleCamouflage)
  | res => res

def encLength (c : CbcCipher) (n : Nat) : Nat :=
  let effectiveBlockSize := maxUInt32 cbcMinPacketSizeMultiple c.encrypter.block.size
  let encLength := maxUInt32 (prefixLen + n + cbcMinPaddingSize) cbcMinPaddingSize
  u32 (subU32 (u32 (encLength + effectiveBlockSize)) 1 / effectiveBlockSize * effectiveBlockSize)

/-- Room for the packet and, in the capacity, for its MAC. -/
def resizeCap (encLength bufferSize : Nat) : Call Err (CbcCipher × ρ) Unit := do
  let c ← self
  let b ← inRange (if u32 c.packetData.cap < bufferSize then makeCap encLength bufferSize
    else c.packetData.upTo encLength)
  update fun c => { c with packetData := b }

/-- `c.packetData = c.mac.Sum(c.packetData)`, when there is a MAC. -/
def appendMac (seqNum : Nat) (c : CbcCipher) : CbcCipher :=
  match c.mac with
  | some m =>
    let tag := m.sum (putUint32 seqNum ++ c.packetData.data)
    { c with packetData := c.packetData.append tag }
  | none => c

/-- `c.encrypter.CryptBlocks` in place on `c.packetData[:n]`. -/
def encryptUpTo (n : Nat) : Call Err (CbcCipher × ρ) Unit := do
  let c ← self
  let src ← inRange (c.packetData.upTo n)
  let r ← inRange (c.encrypter.encrypt src.data)
  update fun c => { c with packetData := c.packetData.store 0 r.1, encrypter := r.2 }

def writePacket (seqNum : Nat) (packet : Bytes) : Call Err (CbcCipher × Sink Err) Unit := do
  let c ← self
  let encLength := c.encLength packet.length
  let length := subU32 encLength 4
  let paddingLength : Int := length - (1 + packet.length)
  resizeCap encLength (u32 (encLength + c.macSize))
  let c ← self
  let p ← inRange (c.packetData.downFrom 4)
  let _ ← inRange (p.index 0)
  let p ← inRange (p.downFrom 1)
  let p ← inRange (p.downFrom packet.length)
  let head := putUint32 length ++ [UInt8.ofNat (paddingLength % 256).toNat]
  update fun c => { c with packetData := c.packetData.store 0 (head ++ packet) }
  let random ← readRand p.len
  update fun c => { c with packetData := c.packetData.store (prefixLen + packet.length) random }
  update (appendMac seqNum)
  encryptUpTo encLength
  let c ← self
  write c.packetData.data

end CbcCipher

/-- The primitives of the standard library; a constructor that fails gives `none`. -/
structure Primitives where
  aes : Bytes → Option Block
  tripleDes : Bytes → Option Block
  ctr : Block → Bytes → Nat → UInt8
  rc4 : Bytes → Option (Nat → UInt8)
  gcm : Block → Option Aead
  hmacSha256 : Bytes → Mac
  hmacSha1 : Bytes → Mac
  size_aes : ∀ k b, aes k = some b → b.size = 16
  size_tripleDes : ∀ k b, tripleDes k = some b → b.size = 8
  nonceSize_gcm : ∀ b a, gcm b = some a → a.nonceSize = 12
  tagSize_gcm : ∀ b a, gcm b = some a → a.tagSize = 16
  size_hmacSha256 : ∀ k, (hmacSha256 k).size = 32
  size_hmacSha1 : ∀ k, (hmacSha1 k).size = 20

structure Hash where
  sum : Bytes → Bytes
  sum_ne_nil : ∀ b, sum b ≠ []

structure KexResult where
  H : Bytes
  K : Bytes
  hash : Hash
  sessionID : Bytes

structure Direction where
  ivTag : Bytes
  keyTag : Bytes
  macKeyTag : Bytes

def serverKeys : Direction := ⟨[66], [68], [70]⟩
def clientKeys : Direction := ⟨[65], [67], [69]⟩

def keyMaterialFrom (tag : Bytes) (r : KexResult) : Nat → Bytes → Nat → Bytes
  | 0, _, _ => []
  | _, _, 0 => []
  | fuel + 1, digestsSoFar, n =>
    let digest := r.hash.sum (r.K ++ r.H ++
      if digestsSoFar = [] then tag ++ r.sessionID else digestsSoFar)
    digest.take n ++ keyMaterialFrom tag r fuel (digestsSoFar ++ digest) (n - digest.length)

/-- Every digest has a byte, so `n` rounds fill `n` bytes. -/
def generateKeyMaterial (n : Nat) (tag : Bytes) (r : KexResult) : Bytes :=
  keyMaterialFrom tag r n [] n

inductive CreateFunc where
  | newAESCTR
  | newRC4

structure StreamCipherMode where
  keySize : Nat
  ivSize : Nat
  skip : Nat
  createFunc : Option CreateFunc

def gcmCipherID : String := "aes128-gcm@openssh.com"
def aes128cbcID : String := "aes128-cbc"
def tripledescbcID : String := "3des-cbc"

def cipherModes : List (String × StreamCipherMode) :=
  [("aes128-ctr", ⟨16, 16, 0, some .newAESCTR⟩), ("aes192-ctr", ⟨24, 16, 0, some .newAESCTR⟩),
    ("aes256-ctr", ⟨32, 16, 0, some .newAESCTR⟩), ("arcfour128", ⟨16, 0, 1536, some .newRC4⟩),
    ("arcfour256", ⟨32, 0, 1536, some .newRC4⟩), ("arcfour", ⟨16, 0, 0, some .newRC4⟩),
    (gcmCipherID, ⟨16, 12, 0, none⟩), (aes128cbcID, ⟨16, 16, 0, none⟩),
    (tripledescbcID, ⟨24, 8, 0, none⟩)]

structure MacMode where
  keySize : Nat
  etm : Bool
  new : Bytes → Mac

section

variable (P : Primitives)

def macModes : List (String × MacMode) :=
  [("hmac-sha2-256-etm@openssh.com", ⟨32, true, P.hmacSha256⟩),
    ("hmac-sha2-256", ⟨32, false, P.hmacSha256⟩),
    ("hmac-sha1", ⟨20, false, P.hmacSha1⟩),
    ("hmac-sha1-96", ⟨20, false, fun key =>
      (P.hmacSha1 key).truncate 12 (by rw [P.size_hmacSha1]; decide)⟩)]

def newAESCTR (key iv : Bytes) : Call Err Unit Stream := do
  let c ← orFail (P.aes key) (.text "crypto/aes: invalid key size")
  pure (.keyed (P.ctr c iv) 0)

def newRC4 (key : Bytes) : Call Err Unit Stream := do
  let ks ← orFail (P.rc4 key) (.text "crypto/rc4: invalid key size")
  pure (.keyed ks 0)

def Stream.dump (s : Stream) : Nat → Nat → Stream
  | 0, _ => s
  | _, 0 => s
  | fuel + 1, remainingToDump =>
    let dumpThisTime := min remainingToDump 512
    (s.xorKeyStream (List.replicate dumpThisTime 0)).2.dump fuel (remainingToDump - dumpThisTime)

def StreamCipherMode.createStream (c : StreamCipherMode) (key iv : Bytes) :
    Call Err Unit Stream := do
  let _ ← inRange (if key.length < c.keySize ∨ iv.length < c.ivSize then none else some ())
  let f ← inRange c.createFunc
  let stream ← match f with
    | .newAESCTR => newAESCTR P (key.take c.keySize) (iv.take c.ivSize)
    | .newRC4 => newRC4 P (key.take c.keySize)
  pure (stream.dump c.skip c.skip)

inductive PacketCipher where
  | stream (s : StreamPacketCipher)
  | gcm (c : GcmCipher)
  | cbc (c : CbcCipher)

def newGCMCipher (iv key : Bytes) : Call Err Unit PacketCipher := do
  let c ← orFail (P.aes key) (.text "crypto/aes: invalid key size")
  let aead ← orFail (P.gcm c) (.text "cipher: NewGCM requires 128-bit block cipher")
  pure (.gcm ⟨aead, iv, make 0⟩)

def newCBCCipher (c : Block) (iv macKey : Bytes) (macMode : MacMode) :
    Call Err Unit PacketCipher := do
  let mode ← inRange (CbcMode.new c iv)
  let mac := macMode.new macKey
  pure (.cbc ⟨some mac, u32 mac.size, mode, mode, make 1024, 0⟩)

def newAESCBCCipher (iv key macKey : Bytes) (macMode : MacMode) :
    Call Err Unit PacketCipher := do
  let c ← orFail (P.aes key) (.text "crypto/aes: invalid key size")
  newCBCCipher c iv macKey macMode

def newTripleDESCBCCipher (iv key macKey : Bytes) (macMode : MacMode) :
    Call Err Unit PacketCipher := do
  let c ← orFail (P.tripleDes key) (.text "crypto/des: invalid key size")
  newCBCCipher c iv macKey macMode

/-- A name outside the tables is a nil pointer dereference in `generateKeys`. -/
def newPacketCipher (d : Direction) (algs : DirectionAlgorithms)
    (kex : KexResult) : Call Err Unit PacketCipher := do
  let cipherMode ← inRange (cipherModes.lookup algs.cipher)
  let macMode ← inRange ((macModes P).lookup algs.mac)
  let iv := generateKeyMaterial cipherMode.ivSize d.ivTag kex
  let key := generateKeyMaterial cipherMode.keySize d.keyTag kex
  let macKey := generateKeyMaterial macMode.keySize d.macKeyTag kex
  if algs.cipher = gcmCipherID then newGCMCipher P iv key
  else if algs.cipher = aes128cbcID then newAESCBCCipher P iv key macKey macMode
  else if algs.cipher = tripledescbcID then newTripleDESCBCCipher P iv key macKey macMode
  else do
    let stream ← cipherMode.createStream P key iv
    pure (.stream ⟨some (macMode.new macKey), stream, macMode.etm, make 0⟩)

end

namespace PacketCipher

def unkeyed : PacketCipher := .stream ⟨none, .noneCipher, false, make 0⟩

def readPacket (seqNum : Nat) : Call Err (PacketCipher × Reader Err) Bytes := fun s =>
  match s.1 with
  | .stream c => (StreamPacketCipher.readPacket seqNum).within .stream c s.2
  | .gcm c => (GcmCipher.readPacket seqNum).within .gcm c s.2
  | .cbc c => (CbcCipher.readPacket seqNum).within .cbc c s.2

def writePacket (seqNum : Nat) (packet : Bytes) : Call Err (PacketCipher × Sink Err) Unit :=
  fun s => match s.1 with
  | .stream c => (StreamPacketCipher.writePacket seqNum packet).within .stream c s.2
  | .gcm c => (GcmCipher.writePacket seqNum packet).within .gcm c s.2
  | .cbc c => (CbcCipher.writePacket seqNum packet).within .cbc c s.2

/-- The packets of one direction in turn, under the sequence numbers of a connection. -/
def readPackets (seqNum : Nat) : Nat → Call Err (PacketCipher × Reader Err) (List Bytes)
  | 0 => pure []
  | n + 1 => do
    let p ← readPacket seqNum
    let ps ← readPackets (u32 (seqNum + 1)) n
    pure (p :: ps)

def writePackets (seqNum : Nat) : List Bytes → Call Err (PacketCipher × Sink Err) Unit
  | [] => pure ()
  | p :: ps => do
    writePacket seqNum p
    writePackets (u32 (seqNum + 1)) ps

end PacketCipher

end XCryptoSsh
