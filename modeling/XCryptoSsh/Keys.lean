import Mathlib.Data.Finmap
import Mathlib.Data.Finset.Sort
import XCryptoSsh.MessagesRoundTrip
import XCryptoSsh.Strings

namespace XCryptoSsh
open Go StructType
set_option autoImplicit true

inductive KeyAlgo where
  | rsa
  | dsa
  | ecdsa256
  | ecdsa384
  | ecdsa521
  | ed25519
  deriving DecidableEq, Repr

namespace KeyAlgo

def name : KeyAlgo → String
  | .rsa => "ssh-rsa"
  | .dsa => "ssh-dss"
  | .ecdsa256 => "ecdsa-sha2-nistp256"
  | .ecdsa384 => "ecdsa-sha2-nistp384"
  | .ecdsa521 => "ecdsa-sha2-nistp521"
  | .ed25519 => "ssh-ed25519"

/-- The table `certAlgoNames`. -/
def certName : KeyAlgo → String
  | .rsa => "ssh-rsa-cert-v01@openssh.com"
  | .dsa => "ssh-dss-cert-v01@openssh.com"
  | .ecdsa256 => "ecdsa-sha2-nistp256-cert-v01@openssh.com"
  | .ecdsa384 => "ecdsa-sha2-nistp384-cert-v01@openssh.com"
  | .ecdsa521 => "ecdsa-sha2-nistp521-cert-v01@openssh.com"
  | .ed25519 => "ssh-ed25519-cert-v01@openssh.com"

def all : List KeyAlgo := [.rsa, .dsa, .ecdsa256, .ecdsa384, .ecdsa521, .ed25519]

def ofName (algo : Bytes) : Option KeyAlgo := all.find? fun a => ascii a.name == algo

/-- `certToPrivAlgo`; `none` for a name that is not a certificate's. -/
def ofCertName (algo : Bytes) : Option KeyAlgo := all.find? fun a => ascii a.certName == algo

end KeyAlgo

inductive Curve where
  | p256
  | p384
  | p521
  deriving DecidableEq, Repr

def Curve.nistID : Curve → String
  | .p256 => "nistp256"
  | .p384 => "nistp384"
  | .p521 => "nistp521"

def Curve.keyAlgo : Curve → KeyAlgo
  | .p256 => .ecdsa256
  | .p384 => .ecdsa384
  | .p521 => .ecdsa521

/-- The point encoding of `crypto/elliptic`. -/
structure Elliptic where
  marshal : Curve → Int → Int → Bytes
  unmarshal : Curve → Bytes → Option (Int × Int)
  onCurve : Curve → Int → Int → Prop
  unmarshal_marshal : onCurve c x y → unmarshal c (marshal c x y) = some (x, y)

inductive RawKey where
  | rsa (e n : Int)
  | dsa (p q g y : Int)
  | ecdsa (curve : Curve) (x y : Int)
  | ed25519 (key : Bytes)
  deriving DecidableEq, Repr

def RawKey.algo : RawKey → KeyAlgo
  | .rsa .. => .rsa
  | .dsa .. => .dsa
  | .ecdsa curve _ _ => curve.keyAlgo
  | .ed25519 _ => .ed25519

structure Signature where
  format : Bytes
  blob : Bytes
  deriving DecidableEq, Repr

/-- A `map[string]string`. -/
abbrev StringMap := Finmap fun _ : Bytes => Bytes

structure Permissions where
  criticalOptions : StringMap
  extensions : StringMap

/-- A certificate without the key that signed it. `Type` panics on a certificate of a certificate,
so the certified key is a plain one. -/
structure Certificate where
  nonce : Bytes
  key : RawKey
  serial : UInt64
  certType : UInt32
  keyId : Bytes
  validPrincipals : List Bytes
  validAfter : UInt64
  validBefore : UInt64
  permissions : Permissions
  reserved : Bytes
  signature : Option Signature

inductive PublicKey where
  | raw (key : RawKey)
  | cert (c : Certificate) (signatureKey : PublicKey)

def PublicKey.type : PublicKey → String
  | .raw key => key.algo.name
  | .cert c _ => c.key.algo.certName

def wireStruct (fields : List Field) (fields_ne : fields ≠ [])
    (rest_last : ∀ f ∈ fields.dropLast, f.kind ≠ .rest) : StructType :=
  ⟨"", [], fields, fields_ne, rest_last⟩

def rsaWire : StructType :=
  wireStruct [⟨"Name", .string⟩, ⟨"E", .bigInt⟩, ⟨"N", .bigInt⟩] (by simp) (by simp)

def rsaFields : StructType :=
  wireStruct [⟨"E", .bigInt⟩, ⟨"N", .bigInt⟩, ⟨"Rest", .rest⟩] (by simp) (by simp)

def dsaWire : StructType :=
  wireStruct [⟨"Name", .string⟩, ⟨"P", .bigInt⟩, ⟨"Q", .bigInt⟩, ⟨"G", .bigInt⟩, ⟨"Y", .bigInt⟩]
    (by simp) (by simp)

def dsaFields : StructType :=
  wireStruct [⟨"P", .bigInt⟩, ⟨"Q", .bigInt⟩, ⟨"G", .bigInt⟩, ⟨"Y", .bigInt⟩, ⟨"Rest", .rest⟩]
    (by simp) (by simp)

def ecdsaWire : StructType :=
  wireStruct [⟨"Name", .string⟩, ⟨"ID", .string⟩, ⟨"Key", .bytes⟩] (by simp) (by simp)

def ecdsaFields : StructType :=
  wireStruct [⟨"Curve", .string⟩, ⟨"KeyBytes", .bytes⟩, ⟨"Rest", .rest⟩] (by simp) (by simp)

def ed25519Wire : StructType :=
  wireStruct [⟨"Name", .string⟩, ⟨"KeyBytes", .bytes⟩] (by simp) (by simp)

def ed25519Fields : StructType :=
  wireStruct [⟨"KeyBytes", .bytes⟩, ⟨"Rest", .rest⟩] (by simp) (by simp)

def nameWire : StructType := wireStruct [⟨"N", .string⟩] (by simp) (by simp)

def optionsTuple : StructType :=
  ⟨"optionsTuple", [], [⟨"Key", .string⟩, ⟨"Value", .bytes⟩], by simp, by simp⟩

def optionsTupleValue : StructType :=
  ⟨"optionsTupleValue", [], [⟨"Value", .string⟩], by simp, by simp⟩

def signatureWire : StructType :=
  ⟨"Signature", [], [⟨"Format", .string⟩, ⟨"Blob", .bytes⟩], by simp, by simp⟩

def certWire : StructType :=
  wireStruct [⟨"Name", .string⟩, ⟨"Nonce", .bytes⟩, ⟨"Key", .rest⟩] (by simp) (by simp)

def genericCertData : StructType where
  name := "genericCertData"
  tags := []
  fields := [⟨"Serial", .uint64⟩, ⟨"CertType", .uint32⟩, ⟨"KeyId", .string⟩,
    ⟨"ValidPrincipals", .bytes⟩, ⟨"ValidAfter", .uint64⟩, ⟨"ValidBefore", .uint64⟩,
    ⟨"CriticalOptions", .bytes⟩, ⟨"Extensions", .bytes⟩, ⟨"Reserved", .bytes⟩,
    ⟨"SignatureKey", .bytes⟩, ⟨"Signature", .bytes⟩]
  fields_ne := by simp
  rest_last := by simp

/-- `a <= b` on strings. -/
def StringLe (a b : Bytes) : Prop := a.map UInt8.toNat ≤ b.map UInt8.toNat

instance : DecidableRel StringLe := fun a b =>
  inferInstanceAs (Decidable (a.map UInt8.toNat ≤ b.map UInt8.toNat))

instance : IsTrans Bytes StringLe := ⟨fun _ _ _ h h' => le_trans h h'⟩

instance : Std.Total StringLe := ⟨fun _ _ => le_total _ _⟩

instance : Std.Antisymm StringLe :=
  ⟨fun _ _ h h' => List.map_injective_iff.mpr (fun _ _ => UInt8.toNat_inj.mp) (le_antisymm h h')⟩

def marshalStringList (namelist : List Bytes) : Option Bytes :=
  namelist.foldlM (fun dst name => do
    let s ← marshal nameWire (name, ())
    pure (dst ++ s)) []

def marshalOptionValue (value : Bytes) : Option Bytes :=
  if value.length > 0 then marshal optionsTupleValue (value, ()) else some []

/-- A non-empty value gets two lengths in front. -/
def marshalTuple (tups : StringMap) (key : Bytes) : Option Bytes := do
  let value ← marshalOptionValue ((tups.lookup key).getD [])
  marshal optionsTuple (key, value, ())

def marshalTuples (tups : StringMap) : Option Bytes :=
  (tups.keys.sort StringLe).foldlM (fun ret key => do
    let s ← marshalTuple tups key
    pure (ret ++ s)) []

def RawKey.marshal (E : Elliptic) : RawKey → Option Bytes
  | .rsa e n => XCryptoSsh.marshal rsaWire (ascii KeyAlgo.rsa.name, e, n, ())
  | .dsa p q g y => XCryptoSsh.marshal dsaWire (ascii KeyAlgo.dsa.name, p, q, g, y, ())
  | .ecdsa curve x y => XCryptoSsh.marshal ecdsaWire
      (ascii curve.keyAlgo.name, ascii curve.nistID, E.marshal curve x y, ())
  | .ed25519 key => XCryptoSsh.marshal ed25519Wire (ascii KeyAlgo.ed25519.name, key, ())

def Certificate.marshalSignature (c : Certificate) : Option Bytes :=
  match c.signature with
  | some sig => marshal signatureWire (sig.format, sig.blob, ())
  | none => pure []

/-- `Marshal()`; `none` when it panics. -/
def PublicKey.marshal (E : Elliptic) : PublicKey → Option Bytes
  | .raw key => key.marshal E
  | .cert c signatureKey => do
    let validPrincipals ← marshalStringList c.validPrincipals
    let criticalOptions ← marshalTuples c.permissions.criticalOptions
    let extensions ← marshalTuples c.permissions.extensions
    let signatureKey ← signatureKey.marshal E
    let signature ← c.marshalSignature
    let genericBytes ← XCryptoSsh.marshal genericCertData (c.serial, c.certType, c.keyId,
      validPrincipals, c.validAfter, c.validBefore, criticalOptions, extensions, c.reserved,
      signatureKey, signature, ())
    let keyBytes ← c.key.marshal E
    -- the name of the key gives way to the name of the certificate
    let keyBytes := ((parseString keyBytes).map fun r => r.2).getD []
    let start ← XCryptoSsh.marshal certWire (ascii c.key.algo.certName, c.nonce, keyBytes, ())
    pure (start ++ genericBytes)

def checkExponent (e : Int) : Except Err Unit :=
  if bitLen e.natAbs > 24 then .error (.text "ssh: exponent too large")
  else if e < 3 ∨ e % 2 = 0 then .error (.text "ssh: incorrect exponent")
  else .ok ()

def parseRSA (input : Bytes) : Except Err (RawKey × Bytes) := do
  let (e, n, rest, _) ← unmarshal rsaFields input
  checkExponent e
  pure (.rsa e n, rest)

def parseDSA (input : Bytes) : Except Err (RawKey × Bytes) := do
  let (p, q, g, y, rest, _) ← unmarshal dsaFields input
  pure (.dsa p q g y, rest)

def Curve.ofID (id : Bytes) : Option Curve :=
  [Curve.p256, .p384, .p521].find? fun c => ascii c.nistID == id

/-- The curve is the one the key names, whatever the algorithm. -/
def parseECDSA (E : Elliptic) (input : Bytes) : Except Err (RawKey × Bytes) := do
  let (id, keyBytes, rest, _) ← unmarshal ecdsaFields input
  match Curve.ofID id with
  | none => .error (.text "ssh: unsupported curve")
  | some curve =>
    match E.unmarshal curve keyBytes with
    | none => .error (.text "ssh: invalid curve point")
    | some (x, y) => pure (.ecdsa curve x y, rest)

def parseED25519 (input : Bytes) : Except Err (RawKey × Bytes) := do
  let (key, rest, _) ← unmarshal ed25519Fields input
  pure (.ed25519 key, rest)

/-- The cases of `parsePubKey` for plain keys, the only ones that `parseCert` comes to. -/
def parsePlainKey (E : Elliptic) (input : Bytes) : KeyAlgo → Except Err (RawKey × Bytes)
  | .rsa => parseRSA input
  | .dsa => parseDSA input
  | .ecdsa256 | .ecdsa384 | .ecdsa521 => parseECDSA E input
  | .ed25519 => parseED25519 input

theorem rest_lt_of_parseString (h : parseString input = some (s, rest)) :
    rest.length < input.length := by
  have hlen := (length_of_parseString h).2
  omega

def parsePrincipals (principals : Bytes) : Except Err (List Bytes) :=
  if principals = [] then .ok []
  else
    match h : parseString principals with
    | none => .error errShortRead
    | some (principal, rest) => do
      have _ := rest_lt_of_parseString h
      let names ← parsePrincipals rest
      pure (principal :: names)
termination_by principals.length

/-- The value of an option: empty, or a string and nothing after it. -/
def parseOptionValue (val : Bytes) : Except Err Bytes :=
  if val.length > 0 then
    match parseString val with
    | none => .error errShortRead
    | some (val, extra) =>
      if extra.length > 0 then
        .error (.text "ssh: unexpected trailing data after certificate option value")
      else .ok val
  else .ok []

/-- The loop of `parseTuples`, with the key of the round before. -/
def parseTuplesFrom (lastKey : Option Bytes) (tups : StringMap) (input : Bytes) :
    Except Err StringMap :=
  if input = [] then .ok tups
  else
    match h : parseString input with
    | none => .error errShortRead
    | some (key, rest) =>
      if lastKey.any fun last => decide (StringLe key last) then
        .error (.text "ssh: certificate options are not in lexical order")
      else
        match h' : parseString rest with
        | none => .error errShortRead
        | some (val, rest') => do
          have _ := (rest_lt_of_parseString h').trans (rest_lt_of_parseString h)
          let value ← parseOptionValue val
          parseTuplesFrom (some key) (tups.insert key value) rest'
termination_by input.length

def parseTuples (input : Bytes) : Except Err StringMap := parseTuplesFrom none ∅ input

def parseSignatureBody (input : Bytes) : Option (Signature × Bytes) :=
  match parseString input with
  | none => none
  | some (format, rest) =>
    match parseString rest with
    | none => none
    | some (blob, rest) => some (⟨format, blob⟩, rest)

def parseSignature (input : Bytes) : Option (Signature × Bytes) :=
  match parseString input with
  | none => none
  | some (sigBytes, rest) =>
    match parseSignatureBody sigBytes with
    | some (out, []) => some (out, rest)
    | _ => none

theorem le_append (a : Bytes) {b : Bytes} (h : n ≤ b.length) : n ≤ (a ++ b).length := by
  rw [List.length_append]
  omega

theorem le_append_left {a : Bytes} (b : Bytes) : a.length ≤ (a ++ b).length := by
  rw [List.length_append]
  omega

theorem length_of_parsePlainKey (h : parsePlainKey E input algo = .ok (key, rest)) :
    rest.length ≤ input.length := by
  cases algo with
  | rsa =>
    obtain ⟨⟨e, n, r, u⟩, hu, h⟩ := except_bind_eq_ok.mp h
    obtain ⟨_, -, h⟩ := except_bind_eq_ok.mp h
    cases h
    exact (le_append _ (le_append _ (le_append_left _))).trans (length_of_unmarshal hu)
  | dsa =>
    obtain ⟨⟨p, q, g, y, r, u⟩, hu, h⟩ := except_bind_eq_ok.mp h
    cases h
    exact (le_append _ (le_append _ (le_append _ (le_append _ (le_append_left _))))).trans
      (length_of_unmarshal hu)
  | ecdsa256 | ecdsa384 | ecdsa521 =>
    obtain ⟨⟨id, b, r, u⟩, hu, h⟩ := except_bind_eq_ok.mp h
    dsimp only at h
    split at h
    · cases h
    split at h
    · cases h
    cases h
    exact (le_append _ (le_append _ (le_append_left _))).trans
      (length_of_unmarshal hu)
  | ed25519 =>
    obtain ⟨⟨b, r, u⟩, hu, h⟩ := except_bind_eq_ok.mp h
    cases h
    exact (le_append _ (le_append_left _)).trans (length_of_unmarshal hu)

def certSignatureKey (g : Vals genericCertData.fields) : Bytes := g.2.2.2.2.2.2.2.2.2.1

def certSignature (g : Vals genericCertData.fields) : Bytes := g.2.2.2.2.2.2.2.2.2.2.1

theorem length_certSignatureKey (h : unmarshal genericCertData input = .ok g) :
    (certSignatureKey g).length < input.length := by
  have hkey : (certSignatureKey g).length < (encodeString (certSignatureKey g)).length := by
    rw [length_encodeString]
    omega
  refine (hkey.trans_le ?_).trans_le (length_of_unmarshal h)
  exact le_append _ (le_append _ (le_append _ (le_append _ (le_append _ (le_append _
    (le_append _ (le_append _ (le_append _ (le_append_left _)))))))))

/-- What `parseCert` takes from the generic part of a certificate before it comes to the key that
signed it. -/
def parseCertData (nonce : Bytes) (key : RawKey) (g : Vals genericCertData.fields) :
    Except Err Certificate := do
  let (serial, certType, keyId, principals, validAfter, validBefore, criticalOptions, extensions,
    reserved, _, _, _) := g
  let validPrincipals ← parsePrincipals principals
  let criticalOptions ← parseTuples criticalOptions
  let extensions ← parseTuples extensions
  pure ⟨nonce, key, serial, certType, keyId, validPrincipals, validAfter, validBefore,
    ⟨criticalOptions, extensions⟩, reserved, none⟩

/-- `parseCert`; `parseKey` is `ParsePublicKey`, which it calls on a shorter input. -/
def parseCert (E : Elliptic) (input : Bytes) (privAlgo : KeyAlgo)
    (parseKey : (b : Bytes) → b.length < input.length → Except Err PublicKey) :
    Except Err PublicKey :=
  match h₁ : parseString input with
  | none => .error errShortRead
  | some (nonce, rest) =>
    match h₂ : parsePlainKey E rest privAlgo with
    | .error e => .error e
    | .ok (key, rest) =>
      match h₃ : unmarshal genericCertData rest with
      | .error e => .error e
      | .ok g => do
        let c ← parseCertData nonce key g
        let signatureKey ← parseKey (certSignatureKey g) (by
          have hlt := rest_lt_of_parseString h₁
          have hle := length_of_parsePlainKey h₂
          have hkey := length_certSignatureKey h₃
          omega)
        match parseSignatureBody (certSignature g) with
        | some (sig, []) => pure (.cert { c with signature := some sig } signatureKey)
        | _ => .error (.text "ssh: signature parse error")

/-- The second result is what is left of the input; a certificate leaves nothing. -/
def parsePubKey (E : Elliptic) (input : Bytes) (algo : Bytes)
    (parseKey : (b : Bytes) → b.length < input.length → Except Err PublicKey) :
    Except Err (PublicKey × Bytes) :=
  match KeyAlgo.ofName algo with
  | some a => do
    let (key, rest) ← parsePlainKey E input a
    pure (.raw key, rest)
  | none =>
    match KeyAlgo.ofCertName algo with
    | some a => do
      let key ← parseCert E input a parseKey
      pure (key, [])
    | none => .error (.text ("ssh: unknown key algorithm: " ++ showBytes algo))

def parsePublicKey (E : Elliptic) (input : Bytes) : Except Err PublicKey :=
  match h : parseString input with
  | none => .error errShortRead
  | some (algo, rest) => do
    have _ := rest_lt_of_parseString h
    let (key, junk) ← parsePubKey E rest algo fun b _ => parsePublicKey E b
    if junk.length > 0 then .error (.text "ssh: trailing junk in public key") else pure key
termination_by input.length

structure Verifiers where
  sha1 : Bytes → Bytes
  ecHash : Curve → Bytes → Bytes
  /-- The error of `rsa.VerifyPKCS1v15`, if any. -/
  rsaVerify : (e n : Int) → (digest sig : Bytes) → Option Err
  dsaVerify : (p q g y : Int) → (digest : Bytes) → (r s : Nat) → Bool
  ecdsaVerify : Curve → (x y : Int) → (digest : Bytes) → (r s : Int) → Bool
  ed25519Verify : (key data sig : Bytes) → Bool

def ecdsaSignature : StructType := wireStruct [⟨"R", .bigInt⟩, ⟨"S", .bigInt⟩] (by simp) (by simp)

def verified (ok : Bool) : Result Err Unit :=
  if ok then .ok () else .error (.text "ssh: signature did not verify")

def RawKey.verify (V : Verifiers) (key : RawKey) (data : Bytes) (sig : Signature) :
    Result Err Unit :=
  if sig.format ≠ ascii key.algo.name then
    .error (.text ("ssh: signature type " ++ showBytes sig.format ++ " for key type " ++
      key.algo.name))
  else
    match key with
    | .rsa e n =>
      match V.rsaVerify e n (V.sha1 data) sig.blob with
      | none => .ok ()
      | some err => .error err
    | .dsa p q g y =>
      if sig.blob.length ≠ 40 then .error (.text "ssh: DSA signature parse error")
      else verified (V.dsaVerify p q g y (V.sha1 data) (setBytes (sig.blob.take 20))
        (setBytes (sig.blob.drop 20)))
    | .ecdsa curve x y =>
      match unmarshal ecdsaSignature sig.blob with
      | .error e => .error e
      | .ok (r, s, _) => verified (V.ecdsaVerify curve x y (V.ecHash curve data) r s)
    | .ed25519 key =>
      -- ed25519.Verify panics on a key of another size, and parseED25519 lets every size through
      if key.length ≠ 32 then .panic else verified (V.ed25519Verify key data sig.blob)

def PublicKey.verify (V : Verifiers) : PublicKey → Bytes → Signature → Result Err Unit
  | .raw key => key.verify V
  | .cert c _ => c.key.verify V

end XCryptoSsh
