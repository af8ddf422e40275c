import XCryptoSsh.Certs
import XCryptoSsh.Cipher

namespace XCryptoSsh
open Go List
set_option autoImplicit true

/-- `E` is an `int`; `primes` has any number of factors. -/
structure RsaPrivateKey where
  e : Int
  n : Int
  d : Int
  primes : List Int
  deriving DecidableEq, Repr

/-- `Precompute` of `crypto/rsa`, `none` when it panics. -/
structure Rsa where
  precompute : RsaPrivateKey → Option Unit

/-- What `AddedKey.PrivateKey` points to; `other` has the name of a type that is not supported. -/
inductive PrivateKey where
  | rsa (key : RsaPrivateKey)
  | dsa (p q g y x : Int)
  | ecdsa (curve : Curve) (x y d : Int)
  | ed25519 (key : Bytes)
  | other (typeName : String)
  deriving DecidableEq, Repr

structure ConstraintExtension where
  extensionName : Bytes
  extensionDetails : Bytes
  deriving DecidableEq, Repr

/-- A certificate comes with the key that signed it. -/
structure AddedKey where
  privateKey : PrivateKey
  certificate : Option (Certificate × PublicKey)
  comment : Bytes
  lifetimeSecs : UInt32 := 0
  confirmBeforeUse : Bool := false
  constraintExtensions : List ConstraintExtension := []

structure AgentKey where
  format : Bytes
  blob : Bytes
  comment : Bytes
  deriving DecidableEq, Repr

/-- An `Agent` whose calls work on a state. A nil pointer is `none`. -/
structure Agent (σ : Type) where
  list : Call Err σ (List (Option AgentKey))
  sign : AgentKey → Bytes → Call Err σ (Option Signature)
  add : AddedKey → Call Err σ Unit
  remove : AgentKey → Call Err σ Unit
  removeAll : Call Err σ Unit
  lock : Bytes → Call Err σ Unit
  unlock : Bytes → Call Err σ Unit

def agentRequestV1Identities : UInt8 := 1
def agentFailure : UInt8 := 5
def agentSuccess : UInt8 := 6
def agentRemoveAllV1Identities : UInt8 := 9
def agentRequestIdentities : UInt8 := 11
def agentSignRequest : UInt8 := 13
def agentAddIdentity : UInt8 := 17
def agentRemoveIdentity : UInt8 := 18
def agentRemoveAllIdentities : UInt8 := 19
def agentLock : UInt8 := 22
def agentUnlock : UInt8 := 23
def agentAddIdConstrained : UInt8 := 25

def agentConstrainLifetime : UInt8 := 1
def agentConstrainConfirm : UInt8 := 2
def agentConstrainExtension : UInt8 := 3

def maxAgentResponseBytes : Nat := 16 * 2 ^ 20

def agentV1IdentityMsg : StructType :=
  ⟨"agentV1IdentityMsg", [2], [⟨"Numkeys", .uint32⟩], by simp, by simp⟩

def agentRemoveIdentityMsg : StructType :=
  ⟨"agentRemoveIdentityMsg", [18], [⟨"KeyBlob", .bytes⟩], by simp, by simp⟩

def agentLockMsg : StructType :=
  ⟨"agentLockMsg", [22], [⟨"Passphrase", .bytes⟩], by simp, by simp⟩

def agentUnlockMsg : StructType :=
  ⟨"agentUnlockMsg", [23], [⟨"Passphrase", .bytes⟩], by simp, by simp⟩

def identitiesAnswerAgentMsg : StructType :=
  ⟨"identitiesAnswerAgentMsg", [12], [⟨"NumKeys", .uint32⟩, ⟨"Keys", .rest⟩], by simp, by simp⟩

def signRequestAgentMsg : StructType :=
  ⟨"signRequestAgentMsg", [13], [⟨"KeyBlob", .bytes⟩, ⟨"Data", .bytes⟩, ⟨"Flags", .uint32⟩],
    by simp, by simp⟩

def signResponseAgentMsg : StructType :=
  ⟨"signResponseAgentMsg", [14], [⟨"SigBlob", .bytes⟩], by simp, by simp⟩

def constrainExtensionAgentMsg : StructType :=
  ⟨"constrainExtensionAgentMsg", [3],
    [⟨"ExtensionName", .string⟩, ⟨"ExtensionDetails", .bytes⟩, ⟨"Rest", .rest⟩], by simp, by simp⟩

def wireKey : StructType :=
  ⟨"wireKey", [], [⟨"Format", .string⟩, ⟨"Rest", .rest⟩], by simp, by simp⟩

def keyRecord : StructType :=
  wireStruct [⟨"Blob", .bytes⟩, ⟨"Comment", .string⟩] (by simp) (by simp)

def identityRecord : StructType :=
  ⟨"", [17, 25], [⟨"Type", .string⟩, ⟨"Rest", .rest⟩], by simp, by simp⟩

def rsaKeyMsg : StructType :=
  ⟨"rsaKeyMsg", [17, 25], [⟨"Type", .string⟩, ⟨"N", .bigInt⟩, ⟨"E", .bigInt⟩, ⟨"D", .bigInt⟩,
    ⟨"Iqmp", .bigInt⟩, ⟨"P", .bigInt⟩, ⟨"Q", .bigInt⟩, ⟨"Comments", .string⟩,
    ⟨"Constraints", .rest⟩], by simp, by simp⟩

def dsaKeyMsg : StructType :=
  ⟨"dsaKeyMsg", [17, 25], [⟨"Type", .string⟩, ⟨"P", .bigInt⟩, ⟨"Q", .bigInt⟩, ⟨"G", .bigInt⟩,
    ⟨"Y", .bigInt⟩, ⟨"X", .bigInt⟩, ⟨"Comments", .string⟩, ⟨"Constraints", .rest⟩],
    by simp, by simp⟩

def ecdsaKeyMsg : StructType :=
  ⟨"ecdsaKeyMsg", [17, 25], [⟨"Type", .string⟩, ⟨"Curve", .string⟩, ⟨"KeyBytes", .bytes⟩,
    ⟨"D", .bigInt⟩, ⟨"Comments", .string⟩, ⟨"Constraints", .rest⟩], by simp, by simp⟩

def ed25519KeyMsg : StructType :=
  ⟨"ed25519KeyMsg", [17, 25], [⟨"Type", .string⟩, ⟨"Pub", .bytes⟩, ⟨"Priv", .bytes⟩,
    ⟨"Comments", .string⟩, ⟨"Constraints", .rest⟩], by simp, by simp⟩

def rsaCertMsg : StructType :=
  ⟨"rsaCertMsg", [17, 25], [⟨"Type", .string⟩, ⟨"CertBytes", .bytes⟩, ⟨"D", .bigInt⟩,
    ⟨"Iqmp", .bigInt⟩, ⟨"P", .bigInt⟩, ⟨"Q", .bigInt⟩, ⟨"Comments", .string⟩,
    ⟨"Constraints", .rest⟩], by simp, by simp⟩

def dsaCertMsg : StructType :=
  ⟨"dsaCertMsg", [17, 25], [⟨"Type", .string⟩, ⟨"CertBytes", .bytes⟩, ⟨"X", .bigInt⟩,
    ⟨"Comments", .string⟩, ⟨"Constraints", .rest⟩], by simp, by simp⟩

def ecdsaCertMsg : StructType :=
  ⟨"ecdsaCertMsg", [17, 25], [⟨"Type", .string⟩, ⟨"CertBytes", .bytes⟩, ⟨"D", .bigInt⟩,
    ⟨"Comments", .string⟩, ⟨"Constraints", .rest⟩], by simp, by simp⟩

def ed25519CertMsg : StructType :=
  ⟨"ed25519CertMsg", [17, 25], [⟨"Type", .string⟩, ⟨"CertBytes", .bytes⟩, ⟨"Pub", .bytes⟩,
    ⟨"Priv", .bytes⟩, ⟨"Comments", .string⟩, ⟨"Constraints", .rest⟩], by simp, by simp⟩

/-- One end of an `io.ReadWriter`: what it still reads, what it wrote, and how its next writes
end; the writes after those succeed. -/
structure ReadWriter where
  input : Reader Err
  output : Bytes := []
  outcomes : List (Option Err) := []

/-- `io.ReadFull(c, b)`. -/
def readConn (n : Nat) : Call Err (C × ReadWriter) Bytes := fun s =>
  match s.2.input.readFull n with
  | (b, none, r) => (.ok b, s.1, { s.2 with input := r })
  | (_, some e, r) => (.error e, s.1, { s.2 with input := r })

theorem readConn_of_le {c : ReadWriter} (s : C) (h : n ≤ c.input.bytes.length) :
    readConn n (s, c) = (.ok (c.input.bytes.take n), s,
      { c with input.bytes := c.input.bytes.drop n }) := by
  simp only [readConn, Reader.readFull, if_pos h]

theorem readConn_of_lt {c : ReadWriter} (s : C) (h : c.input.bytes.length < n) :
    ∃ e r, readConn n (s, c) = (.error e, s, { c with input := r }) := by
  simp only [readConn, Reader.readFull, if_neg (Nat.not_le.mpr h)]
  exact ⟨_, _, rfl⟩

/-- `c.Write(b)`. -/
def writeConn (b : Bytes) : Call Err (C × ReadWriter) Unit := fun s =>
  match s.2.outcomes with
  | some e :: os => (.error e, s.1, { s.2 with outcomes := os })
  | none :: os => (.ok (), s.1, { s.2 with output := s.2.output ++ b, outcomes := os })
  | [] => (.ok (), s.1, { s.2 with output := s.2.output ++ b })

def offConn (x : Call Err C α) : Call Err (C × ReadWriter) α := fun s =>
  let r := x s.1
  (r.1, r.2, s.2)

theorem offConn_eq_ok {x : Call Err C α} {c : ReadWriter} :
    offConn x (s, c) = (.ok a, t) ↔ ∃ s', x s = (.ok a, s') ∧ t = (s', c) := by
  unfold offConn
  cases hx : x s with
  | mk r s' => simp [Prod.ext_iff, eq_comm]

theorem rest_lt_of_constrainExtension {name details rest : Bytes}
    (h : unmarshal constrainExtensionAgentMsg c = .ok (name, details, rest, u)) :
    rest.length < c.length := by
  have hlt : rest.length < (encodeString name ++
    (encodeString details ++ (rest ++ []))).length := by
    simp only [length_append, length_encodeString]
    omega
  exact hlt.trans_le (StructType.length_of_unmarshal h)

structure Constraints where
  lifetimeSecs : UInt32 := 0
  confirmBeforeUse : Bool := false
  extensions : List ConstraintExtension := []
  deriving DecidableEq, Repr

def parseConstraintsFrom (acc : Constraints) (constraints : Bytes) : Result Err Constraints :=
  match constraints with
  | [] => .ok acc
  | x :: rest =>
    if x = agentConstrainLifetime then
      -- constraints[1:5] may reach into the capacity; then constraints[5:] panics
      if rest.length < 4 then .panic
      else parseConstraintsFrom
        { acc with lifetimeSecs := UInt32.ofNat (bigEndianUint32 (rest.take 4)) } (rest.drop 4)
    else if x = agentConstrainConfirm then
      parseConstraintsFrom { acc with confirmBeforeUse := true } rest
    else if x = agentConstrainExtension then
      match h : unmarshal constrainExtensionAgentMsg (x :: rest) with
      | .error e => .error e
      | .ok (name, details, rest', _) =>
        have _ := rest_lt_of_constrainExtension h
        parseConstraintsFrom { acc with extensions := acc.extensions ++ [⟨name, details⟩] } rest'
    else .error (.text ("unknown constraint type: " ++ toString x.toNat))
termination_by constraints.length
decreasing_by
  · simp only [length_drop, length_cons]
    omega
  · exact Nat.lt_succ_self _
  · assumption

def parseConstraints (constraints : Bytes) : Result Err Constraints :=
  parseConstraintsFrom {} constraints

def setConstraints (key : AddedKey) (constraintBytes : Bytes) : Result Err AddedKey := do
  let c ← parseConstraints constraintBytes
  pure { key with
    lifetimeSecs := c.lifetimeSecs
    confirmBeforeUse := c.confirmBeforeUse
    constraintExtensions := c.extensions }

structure Identity where
  privateKey : PrivateKey
  certificate : Option (Certificate × PublicKey)
  comment : Bytes
  constraints : Bytes

/-- The end that the parsers have in common; only those for RSA keys call `Precompute`. -/
def Identity.addedKey (R : Rsa) (id : Identity) : Result Err AddedKey := do
  let _ ← match id.privateKey with
    | .rsa priv => Result.ofOption (R.precompute priv)
    | _ => pure ()
  setConstraints
    { privateKey := id.privateKey, certificate := id.certificate, comment := id.comment }
    id.constraints

def makeRSA (e n d : Int) (primes : List Int) : Except Err PrivateKey :=
  if bitLen e.natAbs > 30 then .error (.text "agent: RSA public exponent too large")
  else .ok (.rsa ⟨e, n, d, primes⟩)

def parseRSAKey (req : Bytes) : Result Err Identity := do
  let (_, n, e, d, _, p, q, comments, constraints, _) ← .ofExcept (unmarshal rsaKeyMsg req)
  let priv ← .ofExcept (makeRSA e n d [p, q])
  pure ⟨priv, none, comments, constraints⟩

def parseEd25519Key (req : Bytes) : Result Err Identity := do
  let (_, _, priv, comments, constraints, _) ← .ofExcept (unmarshal ed25519KeyMsg req)
  pure ⟨.ed25519 priv, none, comments, constraints⟩

def parseDSAKey (req : Bytes) : Result Err Identity := do
  let (_, p, q, g, y, x, comments, constraints, _) ← .ofExcept (unmarshal dsaKeyMsg req)
  pure ⟨.dsa p q g y x, none, comments, constraints⟩

section

variable (E : Elliptic)

def unmarshalECDSA (curveName keyBytes : Bytes) (privScalar : Int) :
    Except Err PrivateKey :=
  match Curve.ofID curveName with
  | none => .error (.text ("agent: unknown curve " ++ quoteBytes curveName))
  | some curve =>
    match E.unmarshal curve keyBytes with
    | none => .error (.text "agent: point not on curve")
    | some (x, y) => .ok (.ecdsa curve x y privScalar)

def parseECDSAKey (req : Bytes) : Result Err Identity := do
  let (_, curve, keyBytes, d, comments, constraints, _) ← .ofExcept (unmarshal ecdsaKeyMsg req)
  let priv ← .ofExcept (unmarshalECDSA E curve keyBytes d)
  pure ⟨priv, none, comments, constraints⟩

/-- `ssh.ParsePublicKey` and the type assertion to `*ssh.Certificate`. -/
def parseCertBytes (certBytes : Bytes) (bad : String) :
    Except Err (Certificate × PublicKey) :=
  match parsePublicKey E certBytes with
  | .error e => .error e
  | .ok (.raw _) => .error (.text bad)
  | .ok (.cert c signatureKey) => .ok (c, signatureKey)

def parseEd25519Cert (req : Bytes) : Result Err Identity := do
  let (_, certBytes, _, priv, comments, constraints, _) ←
    .ofExcept (unmarshal ed25519CertMsg req)
  let cert ← .ofExcept (parseCertBytes E certBytes "agent: bad ED25519 certificate")
  pure ⟨.ed25519 priv, some cert, comments, constraints⟩

def unmarshalFailed (e : Err) : Err :=
  .text ("agent: Unmarshal failed to parse public key: " ++ e.error)

/-- `ssh.Unmarshal(cert.Key.Marshal(), &w)`. -/
def unmarshalCertKey (cert : Certificate × PublicKey) (t : StructType)
    (wrap : Err → Err) : Result Err (Vals t.fields) := do
  let b ← Result.ofOption (cert.1.key.marshal E)
  match unmarshal t b with
  | .error e => .error (wrap e)
  | .ok w => .ok w

def parseRSACert (req : Bytes) : Result Err Identity := do
  let (_, certBytes, d, _, p, q, comments, constraints, _) ← .ofExcept (unmarshal rsaCertMsg req)
  let cert ← .ofExcept (parseCertBytes E certBytes "agent: bad RSA certificate")
  let (_, e, n, _) ← unmarshalCertKey E cert rsaWire unmarshalFailed
  -- the primes change places
  let priv ← .ofExcept (makeRSA e n d [q, p])
  pure ⟨priv, some cert, comments, constraints⟩

def parseDSACert (req : Bytes) : Result Err Identity := do
  let (_, certBytes, x, comments, constraints, _) ← .ofExcept (unmarshal dsaCertMsg req)
  let cert ← .ofExcept (parseCertBytes E certBytes "agent: bad DSA certificate")
  let (_, p, q, g, y, _) ← unmarshalCertKey E cert dsaWire unmarshalFailed
  pure ⟨.dsa p q g y x, some cert, comments, constraints⟩

def parseECDSACert (req : Bytes) : Result Err Identity := do
  let (_, certBytes, d, comments, constraints, _) ← .ofExcept (unmarshal ecdsaCertMsg req)
  let cert ← .ofExcept (parseCertBytes E certBytes "agent: bad ECDSA certificate")
  let (_, id, key, _) ← unmarshalCertKey E cert ecdsaWire id
  let priv ← .ofExcept (unmarshalECDSA E id key d)
  pure ⟨priv, some cert, comments, constraints⟩

def parsePlainIdentity (req : Bytes) : KeyAlgo → Result Err Identity
  | .rsa => parseRSAKey req
  | .dsa => parseDSAKey req
  | .ecdsa256 | .ecdsa384 | .ecdsa521 => parseECDSAKey E req
  | .ed25519 => parseEd25519Key req

def parseCertIdentity (req : Bytes) : KeyAlgo → Result Err Identity
  | .rsa => parseRSACert E req
  | .dsa => parseDSACert E req
  | .ecdsa256 | .ecdsa384 | .ecdsa521 => parseECDSACert E req
  | .ed25519 => parseEd25519Cert E req

def parseIdentity (type req : Bytes) : Result Err Identity :=
  match KeyAlgo.ofName type with
  | some a => parsePlainIdentity E req a
  | none =>
    match KeyAlgo.ofCertName type with
    | some a => parseCertIdentity E req a
    | none => .error (.text ("agent: not implemented: " ++ quoteBytes type))

end

/-- What `processRequest` returns for the reply: nil, or a struct to be marshalled. -/
structure AgentMsg where
  type : StructType
  vals : Vals type.fields

section Server

variable {σ : Type} (E : Elliptic) (R : Rsa) (agent : Agent σ)

def insertIdentity (req : Bytes) : Call Err σ Unit := do
  let (type, _, _) ← .ofExcept (unmarshal identityRecord req)
  let id ← .ofResult (parseIdentity E type req)
  let addedKey ← .ofResult (id.addedKey R)
  agent.add addedKey

def marshalKey (k : AgentKey) : Option Bytes := marshal keyRecord (k.blob, k.comment, ())

/-- The loop over the keys; `k.Marshal()` panics when the pointer is nil. -/
def marshalKeys : List (Option AgentKey) → Option Bytes
  | [] => some []
  | k :: keys => do
    let b ← marshalKey (← k)
    let bs ← marshalKeys keys
    pure (b ++ bs)

def requestKey (keyBlob : Bytes) : Call Err σ AgentKey := do
  let (format, _, _) ← .ofExcept (unmarshal wireKey keyBlob)
  pure ⟨format, keyBlob, []⟩

def processRequest (data : Bytes) : Call Err σ (Option AgentMsg) := do
  let x ← .inRange data.head?
  if x = agentRequestV1Identities then pure (some ⟨agentV1IdentityMsg, (0 : UInt32), ()⟩)
  else if x = agentRemoveAllV1Identities then pure none
  else if x = agentRemoveIdentity then do
    let (keyBlob, _) ← .ofExcept (unmarshal agentRemoveIdentityMsg data)
    let k ← requestKey keyBlob
    agent.remove k
    pure none
  else if x = agentRemoveAllIdentities then do
    agent.removeAll
    pure none
  else if x = agentLock then do
    let (passphrase, _) ← .ofExcept (unmarshal agentLockMsg data)
    agent.lock passphrase
    pure none
  else if x = agentUnlock then do
    let (passphrase, _) ← .ofExcept (unmarshal agentUnlockMsg data)
    agent.unlock passphrase
    pure none
  else if x = agentSignRequest then do
    let (keyBlob, d, _, _) ← .ofExcept (unmarshal signRequestAgentMsg data)
    let k ← requestKey keyBlob
    -- Marshal panics on a nil signature
    let sig ← .inRange (← agent.sign k d)
    let blob ← .inRange (marshal signatureWire (sig.format, sig.blob, ()))
    pure (some ⟨signResponseAgentMsg, blob, ()⟩)
  else if x = agentRequestIdentities then do
    let keys ← agent.list
    let blob ← .inRange (marshalKeys keys)
    pure (some ⟨identitiesAnswerAgentMsg, UInt32.ofNat keys.length, blob, ()⟩)
  else if x = agentAddIdConstrained ∨ x = agentAddIdentity then do
    insertIdentity E R agent data
    pure none
  else .fail (.text ("unknown opcode " ++ toString x.toNat))

/-- The reply; the error is only logged, with the first byte of the request. -/
def processRequestBytes (reqData : Bytes) : Call Err σ Bytes := fun s =>
  match processRequest E R agent reqData s with
  | (.ok none, s') => (.ok [agentSuccess], s')
  | (.ok (some rep), s') => (.ofOption (marshal rep.type rep.vals), s')
  | (.error _, s') => if reqData = [] then (.panic, s') else (.ok [agentFailure], s')
  | (.panic, s') => (.panic, s')

def sendReply (repData : Bytes) : Call Err (σ × ReadWriter) Unit := do
  .failIf (repData.length > maxAgentResponseBytes)
    (.text ("agent: reply too large: " ++ toString repData.length ++ " bytes"))
  writeConn (putUint32 (u32 repData.length))
  writeConn repData

def serveRequest : Call Err (σ × ReadWriter) Unit := do
  let length ← readConn 4
  let l := bigEndianUint32 length
  .failIf (l > maxAgentResponseBytes) (.text ("agent: request too large: " ++ toString l))
  let req ← readConn l
  let repData ← offConn (processRequestBytes E R agent req)
  sendReply repData

/-- The first request of a stream, when all of it is there and it is not too large. -/
def nextRequest (input : Bytes) : Option (Bytes × Bytes) :=
  let l := bigEndianUint32 (input.take 4)
  if 4 ≤ input.length ∧ l ≤ maxAgentResponseBytes ∧ l ≤ (input.drop 4).length then
    some ((input.drop 4).take l, (input.drop 4).drop l)
  else none

theorem length_of_nextRequest (h : nextRequest input = some (req, rest)) :
    rest.length < input.length := by
  simp only [nextRequest] at h
  split at h
  · rename_i hc
    cases h
    simp only [length_drop]
    omega
  · cases h

theorem serveRequest_none {s : σ} {c : ReadWriter} (h : nextRequest c.input.bytes = none) :
    ∃ e r, serveRequest E R agent (s, c) = (.error e, s, { c with input := r }) := by
  unfold serveRequest
  by_cases h4 : 4 ≤ c.input.bytes.length
  · rw [Call.bind_of_ok (readConn_of_le s h4)]
    by_cases hl : bigEndianUint32 (c.input.bytes.take 4) > maxAgentResponseBytes
    · exact ⟨_, _, Call.failIf_bind_of hl⟩
    rw [Call.failIf_bind_of_not hl]
    have hshort : (c.input.bytes.drop 4).length < bigEndianUint32 (c.input.bytes.take 4) := by
      by_contra hle
      simp only [nextRequest] at h
      rw [if_pos ⟨h4, Nat.le_of_not_lt hl, Nat.le_of_not_lt hle⟩] at h
      cases h
    obtain ⟨e, r, hr⟩ :=
      readConn_of_lt (c := { c with input.bytes := c.input.bytes.drop 4 }) s hshort
    exact ⟨e, r, Call.bind_of_error hr⟩
  · obtain ⟨e, r, hr⟩ := readConn_of_lt (c := c) s (Nat.lt_of_not_le h4)
    exact ⟨e, r, Call.bind_of_error hr⟩

theorem serveRequest_some {s : σ} {c : ReadWriter}
    (h : nextRequest c.input.bytes = some (req, rest)) :
    serveRequest E R agent (s, c) = (offConn (processRequestBytes E R agent req) >>= sendReply)
      (s, { c with input.bytes := rest }) := by
  simp only [nextRequest] at h
  split at h
  · rename_i hc
    obtain ⟨h4, hl, hle⟩ := hc
    cases h
    unfold serveRequest
    rw [Call.bind_of_ok (readConn_of_le s h4),
      Call.failIf_bind_of_not (Nat.not_lt.mpr hl),
      Call.bind_of_ok (readConn_of_le s hle)]
  · cases h

theorem sendReply_frame (b : Bytes) (s : σ) (c : ReadWriter) :
    (sendReply b (s, c)).2.1 = s ∧ (sendReply b (s, c)).2.2.input = c.input := by
  have hw (b : Bytes) (t : σ × ReadWriter) (ht : t.1 = s ∧ t.2.input = c.input) :
      (writeConn b t).2.1 = s ∧ (writeConn b t).2.2.input = c.input := by
    unfold writeConn
    split <;> exact ht
  unfold sendReply
  by_cases hl : b.length > maxAgentResponseBytes
  · rw [Call.failIf_bind_of hl]
    exact ⟨rfl, rfl⟩
  rw [Call.failIf_bind_of_not hl]
  have h₁ := hw (putUint32 (u32 b.length)) (s, c) ⟨rfl, rfl⟩
  cases hx : (writeConn (putUint32 (u32 b.length)) (s, c) :
      Result Err Unit × (σ × ReadWriter)) with
  | mk r t =>
    rw [hx] at h₁
    cases r with
    | ok u =>
      rw [Call.bind_of_ok hx]
      exact hw b t h₁
    | error e =>
      rw [Call.bind_of_error hx]
      exact h₁
    | panic =>
      unfold writeConn at hx
      split at hx <;> cases hx

theorem length_of_serveRequest {s s' : σ × ReadWriter}
    (h : serveRequest E R agent s = (.ok u, s')) :
    s'.2.input.bytes.length < s.2.input.bytes.length := by
  obtain ⟨s, c⟩ := s
  cases hn : nextRequest c.input.bytes with
  | none =>
    obtain ⟨e, r, he⟩ := serveRequest_none E R agent (s := s) hn
    cases he.symm.trans h
  | some p =>
    rw [serveRequest_some E R agent hn] at h
    obtain ⟨rep, t, hp, hs⟩ := Call.bind_eq_ok.mp h
    obtain ⟨a, -, rfl⟩ := offConn_eq_ok.mp hp
    have hf := (sendReply_frame rep a { c with input.bytes := p.2 }).2
    rw [hs] at hf
    rw [hf]
    exact length_of_nextRequest hn

/-- `ServeAgent`: its loop ends with an error only. -/
def serveAgent (s : σ × ReadWriter) : Result Err Empty × (σ × ReadWriter) :=
  match h : serveRequest E R agent s with
  | (.ok _, s') =>
    have _ := length_of_serveRequest E R agent h
    serveAgent s'
  | (.error e, s') => (.error e, s')
  | (.panic, s') => (.panic, s')
termination_by s.2.input.bytes.length

end Server

end XCryptoSsh
