import XCryptoSsh.Keys

namespace XCryptoSsh
open Go
set_option autoImplicit true

def hostCert : UInt32 := 2

def certTimeInfinity : UInt64 := 0xffffffffffffffff

def sourceAddressCriticalOption : Bytes := ascii "source-address"

/-- What `bytesForSigning` returns; `none` when it panics. -/
def Certificate.bytesForSigning (E : Elliptic) (c : Certificate) (signatureKey : PublicKey) :
    Option Bytes := do
  let out ← (PublicKey.cert { c with signature := none } signatureKey).marshal E
  -- the trailing signature length goes
  if out.length < 4 then none else pure (out.take (out.length - 4))

def int64 (n : UInt64) : Int := n.toBitVec.toInt

/-- `clock` is what `Clock().Unix()` returns. The certificate comes with the key that signed it. -/
structure CertChecker (ε : Type) where
  supportedCriticalOptions : List Bytes
  isHostAuthority : (auth : PublicKey) → (address : Bytes) → Bool
  clock : Int
  hostKeyFallback : Option ((addr remote : Bytes) → PublicKey → Result ε Unit)
  isRevoked : Option (Certificate → PublicKey → Bool)

namespace CertChecker

/-- A critical option that the checker does not know; the source takes them in any order. -/
def unsupportedOption (c : CertChecker ε) (opts : StringMap) : Option Bytes :=
  (opts.keys.sort StringLe).find? fun opt =>
    opt != sourceAddressCriticalOption && !c.supportedCriticalOptions.contains opt

def checkCert (E : Elliptic) (V : Verifiers) (c : CertChecker ε) (principal : Bytes)
    (cert : Certificate) (signatureKey : PublicKey) : Result Err Unit :=
  if c.isRevoked.any fun isRevoked => isRevoked cert signatureKey then
    .error (.text ("ssh: certicate serial " ++ toString cert.serial.toNat ++ " revoked"))
  else
    match c.unsupportedOption cert.permissions.criticalOptions with
    | some opt =>
      .error (.text ("ssh: unsupported critical option " ++ quoteBytes opt ++ " in certificate"))
    | none =>
      if cert.validPrincipals.length > 0 ∧ principal ∉ cert.validPrincipals then
        .error (.text ("ssh: principal " ++ quoteBytes principal ++
          " not in the set of valid principals for given certificate: [" ++
          " ".intercalate (cert.validPrincipals.map quoteBytes) ++ "]"))
      else if int64 cert.validAfter < 0 ∨ c.clock < int64 cert.validAfter then
        .error (.text "ssh: cert is not yet valid")
      else if cert.validBefore ≠ certTimeInfinity ∧
          (c.clock ≥ int64 cert.validBefore ∨ int64 cert.validBefore < 0) then
        .error (.text "ssh: cert has expired")
      else
        match cert.bytesForSigning E signatureKey, cert.signature with
        | some data, some sig =>
          match signatureKey.verify V data sig with
          | .ok _ => .ok ()
          | .error _ => .error (.text "ssh: certificate signature does not verify")
          | .panic => .panic
        | _, _ => .panic

/-- `CheckHostKey`; `remote` is the text of the remote address. -/
def checkHostKey [Coe Err ε] (E : Elliptic) (V : Verifiers) (c : CertChecker ε)
    (addr remote : Bytes) (key : PublicKey) : Result ε Unit :=
  match key with
  | .raw _ =>
    match c.hostKeyFallback with
    | some fallback => fallback addr remote key
    | none => .error (Err.text "ssh: non-certificate host key" : Err)
  | .cert cert signatureKey =>
    if cert.certType ≠ hostCert then
      .error (Err.text ("ssh: certificate presented as a host key has type " ++
        toString cert.certType.toNat) : Err)
    else if !c.isHostAuthority signatureKey addr then
      .error (Err.text ("ssh: no authorities for hostname: " ++ showBytes addr) : Err)
    else
      match splitHostPort addr with
      | .error e => .error (Err.text e : Err)
      | .ok (hostname, _) =>
        -- the port is no part of the principal
        match c.checkCert E V hostname cert signatureKey with
        | .ok _ => .ok ()
        | .error e => .error e
        | .panic => .panic

end CertChecker

end XCryptoSsh
