import XCryptoSsh.HostKey
import XCryptoSsh.MessagesInjective

namespace XCryptoSsh
open Go Call List StructType Result Transport
open Result (bind_eq_ok ofExcept_bind ofExcept_eq_ok ofOption_eq_ok)
set_option autoImplicit true

theorem writeInt_eq (n : Int) : writeInt n = some (encodeString (intContents n)) :=
  marshalInt_eq n

namespace KexAlgorithm

def Public : KexAlgorithm → Type
  | .dhGroup _ _ => Int
  | .ecdh _ => Bytes
  | .curve25519sha256 => Bytes

def contents : (kex : KexAlgorithm) → kex.Public → Bytes
  | .dhGroup _ _, x => intContents x
  | .ecdh _, b => b
  | .curve25519sha256, b => b

theorem contents_inj {kex : KexAlgorithm} {x y : kex.Public} (h : kex.contents x = kex.contents y) :
    x = y := by
  cases kex with
  | dhGroup g p => exact intContents_inj h
  | ecdh curve => exact h
  | curve25519sha256 => exact h

def hash (P : KexPrimitives) : KexAlgorithm → Hash
  | .dhGroup _ _ => P.sha1
  | .ecdh curve => P.ecHash curve
  | .curve25519sha256 => P.sha256

def ownPublic (P : KexPrimitives) (rand : KexRandom) : (kex : KexAlgorithm) → kex.Public
  | .dhGroup g p => ((g ^ rand.exponent % p : Nat) : Int)
  | .ecdh curve => ephemeralKey P rand curve
  | .curve25519sha256 => P.x25519Base rand.priv

def secret (P : KexPrimitives) (rand : KexRandom) :
    (kex : KexAlgorithm) → kex.Public → Except Err Int
  | .dhGroup _ p, y => diffieHellman p y rand.exponent
  | .ecdh curve, b => do
    let (x, y) ← unmarshalECKey P curve b
    pure (P.scalarMult curve x y rand.scalar)
  | .curve25519sha256, b => do
    let k ← curve25519Secret P rand b
    pure (setBytes k : Nat)

def initPacket : (kex : KexAlgorithm) → kex.Public → Bytes
  | .dhGroup _ _, x => kexDHInitMsg.encode (x, ())
  | .ecdh _, b => kexECDHInitMsg.encode (b, ())
  | .curve25519sha256, b => kexECDHInitMsg.encode (b, ())

def parseInit : (kex : KexAlgorithm) → Bytes → Except Err kex.Public
  | .dhGroup _ _, packet => do
    let (x, _) ← unmarshal kexDHInitMsg packet
    pure x
  | .ecdh _, packet => do
    let (b, _) ← unmarshal kexECDHInitMsg packet
    pure b
  | .curve25519sha256, packet => do
    let (b, _) ← unmarshal kexECDHInitMsg packet
    pure b

def replyPacket (hostKey sig : Bytes) : (kex : KexAlgorithm) → kex.Public → Bytes
  | .dhGroup _ _, y => kexDHReplyMsg.encode (hostKey, y, sig, ())
  | .ecdh _, b => kexECDHReplyMsg.encode (hostKey, b, sig, ())
  | .curve25519sha256, b => kexECDHReplyMsg.encode (hostKey, b, sig, ())

def parseReply : (kex : KexAlgorithm) → Bytes → Except Err (Bytes × kex.Public × Bytes)
  | .dhGroup _ _, packet => do
    let (hostKey, y, sig, _) ← unmarshal kexDHReplyMsg packet
    pure (hostKey, y, sig)
  | .ecdh _, packet => do
    let (hostKey, b, sig, _) ← unmarshal kexECDHReplyMsg packet
    pure (hostKey, b, sig)
  | .curve25519sha256, packet => do
    let (hostKey, b, sig, _) ← unmarshal kexECDHReplyMsg packet
    pure (hostKey, b, sig)

theorem parseInit_initPacket {kex : KexAlgorithm} {x : kex.Public}
    (hl : (kex.initPacket x).length < 2 ^ 32) : kex.parseInit (kex.initPacket x) = .ok x := by
  cases kex with
  | dhGroup g p =>
    have h := unmarshal_encode_of_length_lt (t := kexDHInitMsg) rfl (by decide)
      (by simp [kexDHInitMsg]) hl
    exact except_bind_eq_ok.mpr ⟨_, h, rfl⟩
  | ecdh | curve25519sha256 =>
    have h := unmarshal_encode_of_length_lt (t := kexECDHInitMsg) rfl (by decide)
      (by simp [kexECDHInitMsg]) hl
    exact except_bind_eq_ok.mpr ⟨_, h, rfl⟩

theorem parseReply_replyPacket {kex : KexAlgorithm} {y : kex.Public}
    (hl : (kex.replyPacket hostKey sig y).length < 2 ^ 32) :
    kex.parseReply (kex.replyPacket hostKey sig y) = .ok (hostKey, y, sig) := by
  cases kex with
  | dhGroup g p =>
    have h := unmarshal_encode_of_length_lt (t := kexDHReplyMsg) rfl (by decide)
      (by simp [kexDHReplyMsg]) hl
    exact except_bind_eq_ok.mpr ⟨_, h, rfl⟩
  | ecdh | curve25519sha256 =>
    have h := unmarshal_encode_of_length_lt (t := kexECDHReplyMsg) rfl (by decide)
      (by simp [kexECDHReplyMsg]) hl
    exact except_bind_eq_ok.mpr ⟨_, h, rfl⟩

end KexAlgorithm

structure KexTranscript (kex : KexAlgorithm) where
  magics : HandshakeMagics
  hostKey : Bytes
  clientPub : kex.Public
  serverPub : kex.Public
  k : Int

namespace KexTranscript

variable {kex : KexAlgorithm}

def parts (v : KexTranscript kex) : List Bytes :=
  [v.magics.clientVersion, v.magics.serverVersion, v.magics.clientKexInit, v.magics.serverKexInit,
    v.hostKey, kex.contents v.clientPub, kex.contents v.serverPub, intContents v.k]

def bytes (v : KexTranscript kex) : Bytes := v.parts.flatMap encodeString

def result (v : KexTranscript kex) (hash : Hash) (sig : Bytes) : HostKexResult where
  H := hash.sum v.bytes
  K := encodeString (intContents v.k)
  hash := hash
  sessionID := []
  hostKey := v.hostKey
  signature := sig

theorem kexResult_eq (kex : KexAlgorithm) (v : KexTranscript kex) (hash : Hash) (sig : Bytes) :
    kexResult hash v.magics v.hostKey sig (encodeString (kex.contents v.clientPub))
      (encodeString (kex.contents v.serverPub)) (encodeString (intContents v.k)) =
      v.result hash sig := by
  have hbytes : v.bytes = v.magics.write ++ encodeString v.hostKey ++
      encodeString (kex.contents v.clientPub) ++ encodeString (kex.contents v.serverPub) ++
      encodeString (intContents v.k) := by
    simp only [bytes, parts, flatMap_cons, flatMap_nil, append_nil,
      HandshakeMagics.write, append_assoc]
  rw [kexResult, result, hbytes]

def Short (v : KexTranscript kex) : Prop := ∀ b ∈ v.parts, b.length < 2 ^ 32

instance (v : KexTranscript kex) : Decidable v.Short :=
    inferInstanceAs (Decidable (∀ b ∈ v.parts, _))

theorem eq_of_bytes {v w : KexTranscript kex} (hv : v.Short) (hw : w.Short)
    (h : v.bytes = w.bytes) :
    v = w := by
  have hlen : v.parts.length = w.parts.length := rfl
  have hparts := flatMap_encodeString_inj hlen hv hw h
  obtain ⟨⟨cv, sv, ci, si⟩, hk, x, y, k⟩ := v
  obtain ⟨⟨cv', sv', ci', si'⟩, hk', x', y', k'⟩ := w
  simp only [parts, cons.injEq, and_true] at hparts
  obtain ⟨rfl, rfl, rfl, rfl, rfl, hx, hy, hk⟩ := hparts
  rw [KexAlgorithm.contents_inj hx, KexAlgorithm.contents_inj hy, intContents_inj hk]

end KexTranscript

namespace KexAlgorithm

variable {κ : Type} {P : KexPrimitives} {rand : KexRandom} {magics : HandshakeMagics}
variable {t t' : Transport κ} {r : HostKexResult} {kex : KexAlgorithm}

theorem clientRound_eq_ok {finish : Bytes → Result Err HostKexResult} (hi : init = some i) :
    clientRound init finish t = (.ok r, t') ↔
      ∃ t₁ packet, writePacket i t = (.ok (), t₁) ∧
        readPacket t₁ = (.ok packet, t') ∧ finish packet = .ok r := by
  subst hi
  constructor
  · intro h
    obtain ⟨_, h₀, h⟩ := inRange_bind_eq_ok.mp h
    cases h₀
    obtain ⟨_, t₁, h₁, h⟩ := bind_eq_ok.mp h
    obtain ⟨packet, t₂, h₂, h⟩ := bind_eq_ok.mp h
    obtain ⟨hfinish, rfl⟩ := ofResult_eq_ok.mp h
    exact ⟨t₁, packet, h₁, h₂, hfinish⟩
  · rintro ⟨t₁, packet, h₁, h₂, h⟩
    refine bind_eq_ok.mpr ⟨i, t, rfl, bind_eq_ok.mpr ⟨(), t₁, h₁, ?_⟩⟩
    exact bind_eq_ok.mpr ⟨packet, t', h₂, ofResult_eq_ok.mpr ⟨h, rfl⟩⟩

theorem serverRound_eq_ok {answer : Bytes → Result Err (Bytes × HostKexResult)} :
    serverRound answer t = (.ok r, t') ↔
      ∃ t₁ packet reply, readPacket t = (.ok packet, t₁) ∧
        answer packet = .ok (reply, r) ∧ writePacket reply t₁ = (.ok (), t') := by
  constructor
  · intro h
    obtain ⟨packet, t₁, h₁, h⟩ := bind_eq_ok.mp h
    obtain ⟨⟨reply, r'⟩, t₂, h₂, h⟩ := bind_eq_ok.mp h
    obtain ⟨hanswer, rfl⟩ := ofResult_eq_ok.mp h₂
    obtain ⟨_, t₃, h₃, h⟩ := bind_eq_ok.mp h
    obtain ⟨rfl, rfl⟩ := pure_eq_ok.mp h
    exact ⟨t₁, packet, reply, h₁, hanswer, h₃⟩
  · rintro ⟨t₁, packet, reply, h₁, h₂, h₃⟩
    refine bind_eq_ok.mpr ⟨packet, t₁, h₁, bind_eq_ok.mpr ⟨(reply, r), t₁, ?_, ?_⟩⟩
    · exact ofResult_eq_ok.mpr ⟨h₂, rfl⟩
    · exact bind_eq_ok.mpr ⟨(), t', h₃, pure_eq_ok.mpr ⟨rfl, rfl⟩⟩

def conclude (kex : KexAlgorithm) (P : KexPrimitives) (rand : KexRandom) (magics : HandshakeMagics)
    (packet : Bytes) : Result Err HostKexResult := do
  let (hostKey, y, sig) ← .ofExcept (kex.parseReply packet)
  let k ← .ofExcept (kex.secret P rand y)
  pure (KexTranscript.result ⟨magics, hostKey, kex.ownPublic P rand, y, k⟩ (kex.hash P) sig)

def answer (kex : KexAlgorithm) (P : KexPrimitives) (rand : KexRandom) (magics : HandshakeMagics)
    (priv : Signer) (packet : Bytes) : Result Err (Bytes × HostKexResult) := do
  let x ← .ofExcept (kex.parseInit packet)
  let k ← .ofExcept (kex.secret P rand x)
  let hostKey ← .ofOption (priv.publicKey.marshal P.elliptic)
  let v : KexTranscript kex := ⟨magics, hostKey, x, kex.ownPublic P rand, k⟩
  let sig ← signAndMarshal priv ((kex.hash P).sum v.bytes)
  pure (kex.replyPacket hostKey sig (kex.ownPublic P rand), v.result (kex.hash P) sig)

theorem client_eq : (kex.client P rand magics : Call Err (Transport κ) HostKexResult) =
    clientRound (some (kex.initPacket (kex.ownPublic P rand))) (kex.conclude P rand magics) := by
  cases kex with
  | dhGroup g p =>
    have hinit := marshal_eq kexDHInitMsg (((g ^ rand.exponent % p : Nat) : Int), ())
    refine congrArg₂ clientRound hinit (funext fun packet => ?_)
    rw [conclude, parseReply, ofExcept_bind, Result.bind_assoc]
    refine Result.bind_congr fun (m : Bytes × Int × Bytes × Unit) => ?_
    obtain ⟨hostKey, y, sig, u⟩ := m
    refine Result.bind_congr fun k => ?_
    rw [writeInt_eq, writeInt_eq, writeInt_eq]
    exact congrArg ok (KexTranscript.kexResult_eq (.dhGroup g p)
      ⟨magics, hostKey, ((g ^ rand.exponent % p : Nat) : Int), y, k⟩ P.sha1 sig)
  | ecdh curve =>
    have hinit := marshal_eq kexECDHInitMsg (ephemeralKey P rand curve, ())
    refine congrArg₂ clientRound hinit (funext fun packet => ?_)
    rw [conclude, parseReply, ofExcept_bind, Result.bind_assoc]
    refine Result.bind_congr fun (m : Bytes × Bytes × Bytes × Unit) => ?_
    obtain ⟨hostKey, b, sig, u⟩ := m
    change _ = (Result.ofExcept (unmarshalECKey P curve b >>= _) >>= _)
    rw [ofExcept_bind, Result.bind_assoc]
    refine Result.bind_congr fun ⟨x, y⟩ => ?_
    dsimp only
    rw [writeInt_eq]
    exact congrArg ok (KexTranscript.kexResult_eq (.ecdh curve)
      ⟨magics, hostKey, ephemeralKey P rand curve, b, P.scalarMult curve x y rand.scalar⟩
      (P.ecHash curve) sig)
  | curve25519sha256 =>
    have hinit := marshal_eq kexECDHInitMsg (P.x25519Base rand.priv, ())
    refine congrArg₂ clientRound hinit (funext fun packet => ?_)
    rw [conclude, parseReply, ofExcept_bind, Result.bind_assoc]
    refine Result.bind_congr fun (m : Bytes × Bytes × Bytes × Unit) => ?_
    obtain ⟨hostKey, b, sig, u⟩ := m
    change _ = (Result.ofExcept (curve25519Secret P rand b >>= _) >>= _)
    rw [ofExcept_bind, Result.bind_assoc]
    refine Result.bind_congr fun k => ?_
    rw [writeInt_eq]
    exact congrArg ok (KexTranscript.kexResult_eq .curve25519sha256
      ⟨magics, hostKey, P.x25519Base rand.priv, b, (setBytes k : Nat)⟩ P.sha256 sig)

theorem sign_eq (kex : KexAlgorithm) (v : KexTranscript kex) (hash : Hash)
    {reply : Bytes → Option Bytes}
    {packet : Bytes → Bytes} (hreply : ∀ sig, reply sig = some (packet sig)) :
    let result := kexResult hash v.magics v.hostKey [] (encodeString (kex.contents v.clientPub))
      (encodeString (kex.contents v.serverPub)) (encodeString (intContents v.k))
    (do
      let sig ← signAndMarshal priv result.H
      let reply ← .ofOption (reply sig)
      pure (reply, { result with signature := sig }) : Result Err (Bytes × HostKexResult)) = (do
      let sig ← signAndMarshal priv (hash.sum v.bytes)
      pure (packet sig, v.result hash sig)) := by
  rw [KexTranscript.kexResult_eq]
  refine Result.bind_congr fun sig => ?_
  rw [hreply]
  rfl

theorem server_eq : (kex.server P rand magics priv : Call Err (Transport κ) HostKexResult) =
    serverRound (kex.answer P rand magics priv) := by
  cases kex with
  | dhGroup g p =>
    refine congrArg serverRound (funext fun packet => ?_)
    rw [answer, parseInit, ofExcept_bind, Result.bind_assoc]
    refine Result.bind_congr fun (m : Int × Unit) => ?_
    obtain ⟨x, u⟩ := m
    refine Result.bind_congr fun k => Result.bind_congr fun hostKey => ?_
    dsimp only
    rw [writeInt_eq, writeInt_eq, writeInt_eq]
    exact sign_eq (.dhGroup g p) ⟨magics, hostKey, x, ((g ^ rand.exponent % p : Nat) : Int), k⟩
      P.sha1 fun sig => marshal_eq kexDHReplyMsg (hostKey, _, sig, ())
  | ecdh curve =>
    refine congrArg serverRound (funext fun packet => ?_)
    rw [answer, parseInit, ofExcept_bind, Result.bind_assoc]
    refine Result.bind_congr fun (m : Bytes × Unit) => ?_
    obtain ⟨b, u⟩ := m
    change _ = (Result.ofExcept (unmarshalECKey P curve b >>= _) >>= _)
    rw [ofExcept_bind, Result.bind_assoc]
    refine Result.bind_congr fun ⟨x, y⟩ => Result.bind_congr fun hostKey => ?_
    dsimp only
    rw [writeInt_eq]
    exact sign_eq (.ecdh curve) ⟨magics, hostKey, b, ephemeralKey P rand curve,
      P.scalarMult curve x y rand.scalar⟩ (P.ecHash curve)
      fun sig => marshal_eq kexECDHReplyMsg (hostKey, ephemeralKey P rand curve, sig, ())
  | curve25519sha256 =>
    refine congrArg serverRound (funext fun packet => ?_)
    rw [answer, parseInit, ofExcept_bind, Result.bind_assoc]
    refine Result.bind_congr fun (m : Bytes × Unit) => ?_
    obtain ⟨b, u⟩ := m
    change _ = (Result.ofExcept (curve25519Secret P rand b >>= _) >>= _)
    rw [ofExcept_bind, Result.bind_assoc]
    refine Result.bind_congr fun k => Result.bind_congr fun hostKey => ?_
    dsimp only
    rw [writeInt_eq]
    exact sign_eq .curve25519sha256 ⟨magics, hostKey, b, P.x25519Base rand.priv, (setBytes k : Nat)⟩
      P.sha256 fun sig => marshal_eq kexECDHReplyMsg
        (hostKey, P.x25519Base rand.priv, sig, ())

theorem conclude_eq_ok : kex.conclude P rand magics packet = .ok r ↔ ∃ hostKey y sig k,
    kex.parseReply packet = .ok (hostKey, y, sig) ∧ kex.secret P rand y = .ok k ∧
    r = KexTranscript.result ⟨magics, hostKey, kex.ownPublic P rand, y, k⟩ (kex.hash P) sig := by
  constructor
  · intro h
    obtain ⟨⟨hostKey, y, sig⟩, h₁, h⟩ := bind_eq_ok.mp h
    obtain ⟨k, h₂, h⟩ := bind_eq_ok.mp h
    cases h
    exact ⟨hostKey, y, sig, k, ofExcept_eq_ok.mp h₁, ofExcept_eq_ok.mp h₂, rfl⟩
  · rintro ⟨hostKey, y, sig, k, h₁, h₂, rfl⟩
    refine bind_eq_ok.mpr ⟨_, ofExcept_eq_ok.mpr h₁, ?_⟩
    exact bind_eq_ok.mpr ⟨k, ofExcept_eq_ok.mpr h₂, rfl⟩

theorem answer_eq_ok : kex.answer P rand magics priv packet = .ok (reply, r) ↔ ∃ x k hostKey sig,
    kex.parseInit packet = .ok x ∧ kex.secret P rand x = .ok k ∧
    priv.publicKey.marshal P.elliptic = some hostKey ∧ signAndMarshal priv r.H = .ok sig ∧
    reply = kex.replyPacket hostKey sig (kex.ownPublic P rand) ∧
    r = KexTranscript.result ⟨magics, hostKey, x, kex.ownPublic P rand, k⟩ (kex.hash P) sig := by
  constructor
  · intro h
    obtain ⟨x, h₁, h⟩ := bind_eq_ok.mp h
    obtain ⟨k, h₂, h⟩ := bind_eq_ok.mp h
    obtain ⟨hostKey, h₃, h⟩ := bind_eq_ok.mp h
    obtain ⟨sig, h₄, h⟩ := bind_eq_ok.mp h
    cases h
    exact ⟨x, k, hostKey, sig, ofExcept_eq_ok.mp h₁, ofExcept_eq_ok.mp h₂,
      ofOption_eq_ok.mp h₃, h₄, rfl, rfl⟩
  · rintro ⟨x, k, hostKey, sig, h₁, h₂, h₃, h₄, rfl, rfl⟩
    refine bind_eq_ok.mpr ⟨x, ofExcept_eq_ok.mpr h₁, ?_⟩
    refine bind_eq_ok.mpr ⟨k, ofExcept_eq_ok.mpr h₂, ?_⟩
    refine bind_eq_ok.mpr ⟨hostKey, ofOption_eq_ok.mpr h₃, ?_⟩
    exact bind_eq_ok.mpr ⟨sig, h₄, rfl⟩

theorem client_eq_ok : kex.client P rand magics t = (.ok r, t') ↔ ∃ t₁ packet,
    writePacket (kex.initPacket (kex.ownPublic P rand)) t = (.ok (), t₁) ∧
    readPacket t₁ = (.ok packet, t') ∧ kex.conclude P rand magics packet = .ok r := by
  rw [client_eq]
  exact clientRound_eq_ok rfl

theorem server_eq_ok : kex.server P rand magics priv t = (.ok r, t') ↔ ∃ t₁ packet reply,
    readPacket t = (.ok packet, t₁) ∧
    kex.answer P rand magics priv packet = .ok (reply, r) ∧
    writePacket reply t₁ = (.ok (), t') := by
  rw [server_eq]
  exact serverRound_eq_ok

end KexAlgorithm

theorem Transport.kept_of_readPacket {t t' : Transport κ} (h : readPacket t = (.ok packet, t')) :
    t.incoming.filter (!noise ·) = .ok packet :: t'.incoming.filter (!noise ·) := by
  obtain ⟨dropped, hin, hdropped, hp, -⟩ := readFrom_eq_ok (readPacket_eq_ok h).1
  have hnil : dropped.filter (!noise ·) = [] :=
    filter_eq_nil_iff.mpr fun r hr => by simp [hdropped r hr]
  rw [hin, filter_append, hnil, nil_append, filter_cons_of_pos (by simp [hp])]

theorem Transport.mem_of_readPacket {t t' : Transport κ} (h : readPacket t = (.ok packet, t')) :
    .ok packet ∈ t.incoming := by
  refine (mem_filter (p := (!noise ·))).mp ?_ |>.1
  rw [kept_of_readPacket h]
  exact mem_cons_self

namespace KexTranscript

/-- The transcript of a client that drew these secrets and got this reply. -/
def OfClient (v : KexTranscript kex) (P : KexPrimitives) (rand : KexRandom) (packet : Bytes) :
    Prop :=
  v.clientPub = kex.ownPublic P rand ∧ kex.secret P rand v.serverPub = .ok v.k ∧
    ∃ sig, kex.parseReply packet = .ok (v.hostKey, v.serverPub, sig)

/-- The transcript of a server that drew these secrets and got this public value. -/
def OfServer (v : KexTranscript kex) (P : KexPrimitives) (rand : KexRandom) (priv : Signer)
    (packet : Bytes) : Prop :=
  v.serverPub = kex.ownPublic P rand ∧ kex.secret P rand v.clientPub = .ok v.k ∧
    kex.parseInit packet = .ok v.clientPub ∧ priv.publicKey.marshal P.elliptic = some v.hostKey

end KexTranscript

/-- Every run of a client or a server hashes the bytes of its transcript, and these bytes determine
the transcript. -/
theorem exchangeHash_binds {κ : Type} (P : KexPrimitives) (kex : KexAlgorithm) :
    (∀ (t t' : Transport κ) rand magics r, kex.client P rand magics t = (.ok r, t') →
      ∃ (v : KexTranscript kex) (packet : Bytes), .ok packet ∈ t.incoming ∧ v.magics = magics ∧
        v.OfClient P rand packet ∧ r = v.result (kex.hash P) r.signature) ∧
    (∀ (t t' : Transport κ) rand magics priv r, kex.server P rand magics priv t = (.ok r, t') →
      ∃ (v : KexTranscript kex) (packet : Bytes), .ok packet ∈ t.incoming ∧ v.magics = magics ∧
        v.OfServer P rand priv packet ∧ r = v.result (kex.hash P) r.signature) ∧
    ∀ v w : KexTranscript kex, v.Short → w.Short → v.bytes = w.bytes →
      v.magics.clientVersion = w.magics.clientVersion ∧
      v.magics.serverVersion = w.magics.serverVersion ∧
      v.magics.clientKexInit = w.magics.clientKexInit ∧
      v.magics.serverKexInit = w.magics.serverKexInit ∧ v.hostKey = w.hostKey ∧
      v.clientPub = w.clientPub ∧ v.serverPub = w.serverPub ∧ v.k = w.k := by
  refine ⟨?_, ?_, ?_⟩
  · intro t t' rand magics r h
    obtain ⟨t₁, packet, hw, hread, hc⟩ := KexAlgorithm.client_eq_ok.mp h
    obtain ⟨hostKey, y, sig, k, hparse, hsecret, rfl⟩ := KexAlgorithm.conclude_eq_ok.mp hc
    refine ⟨⟨magics, hostKey, _, y, k⟩, packet, ?_, rfl, ⟨rfl, hsecret, sig, hparse⟩, rfl⟩
    rw [← (writePacket_eq_ok hw).2.1]
    exact mem_of_readPacket hread
  · intro t t' rand magics priv r h
    obtain ⟨t₁, packet, reply, hread, ha, -⟩ := KexAlgorithm.server_eq_ok.mp h
    obtain ⟨x, k, hostKey, sig, hparse, hsecret, hkey, -, -, rfl⟩ := KexAlgorithm.answer_eq_ok.mp ha
    exact ⟨⟨magics, hostKey, x, _, k⟩, packet, mem_of_readPacket hread, rfl,
      ⟨rfl, hsecret, hparse, hkey⟩, rfl⟩
  · intro v w hv hw h
    cases KexTranscript.eq_of_bytes hv hw h
    exact ⟨rfl, rfl, rfl, rfl, rfl, rfl, rfl, rfl⟩

namespace KexTranscript

def small (clientVersion serverVersion : Bytes) : KexTranscript (.dhGroup 5 23) :=
  ⟨⟨clientVersion, serverVersion, [20], [20]⟩, [1], (8 : Int), (19 : Int), 2⟩

def smallReply : Bytes := kexDHReplyMsg.encode ([1], (19 : Int), [2], ())

end KexTranscript

open KexTranscript Handshake in
theorem exchangeHash_binds_small :
    (∃ r t', KexAlgorithm.client openEnv.prims ⟨6, 0, []⟩ (small [1, 2] [3]).magics (.dhGroup 5 23)
        (new () true [.ok smallReply]) = (.ok r, t') ∧
      ∃ (v : KexTranscript (.dhGroup 5 23)) (packet : Bytes),
        (.ok packet : Except Err Bytes) ∈ [.ok smallReply] ∧
        v.magics = (small [1, 2] [3]).magics ∧ v.OfClient openEnv.prims ⟨6, 0, []⟩ packet ∧
        r = v.result openEnv.prims.sha1 r.signature) ∧
    (small [1, 2] [3]).Short ∧ (small [1] [2, 3]).Short ∧
      (small [1, 2] [3]).bytes ≠ (small [1] [2, 3]).bytes := by
  obtain ⟨hclient, -, hbytes⟩ := exchangeHash_binds (κ := Unit) openEnv.prims (.dhGroup 5 23)
  have hrun : (KexAlgorithm.client openEnv.prims ⟨6, 0, []⟩ (small [1, 2] [3]).magics
    (.dhGroup 5 23)
      (new () true [.ok smallReply])).1.test (fun r => r.K == [0, 0, 0, 1, 2]) = true := by
    decide +kernel
  obtain ⟨r, t', hok, -⟩ := exists_of_test hrun
  have h₁ : (small [1, 2] [3]).Short := by decide +kernel
  have h₂ : (small [1] [2, 3]).Short := by decide +kernel
  refine ⟨⟨r, t', hok, hclient _ t' _ _ r hok⟩, h₁, h₂, fun h => ?_⟩
  obtain ⟨hversion, -⟩ := hbytes _ _ h₁ h₂ h
  exact absurd hversion (by decide)

end XCryptoSsh
