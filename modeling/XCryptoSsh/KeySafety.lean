import XCryptoSsh.CertBytes

namespace XCryptoSsh
open Go KeyAlgo
set_option autoImplicit true

/-- The length that `ed25519.Verify` asks for. -/
def RawKey.Sized : RawKey → Prop
  | .ed25519 key => key.length = 32
  | _ => True

instance (key : RawKey) : Decidable key.Sized := by
  cases key <;> unfold RawKey.Sized <;> infer_instance

theorem verified_ne_panic (ok : Bool) : verified ok ≠ .panic := by
  cases ok <;> exact nofun

theorem RawKey.verify_eq_panic_iff {key : RawKey} :
    key.verify V data sig = .panic ↔ ¬key.Sized ∧ sig.format = ascii KeyAlgo.ed25519.name := by
  unfold RawKey.verify
  by_cases hf : sig.format = ascii key.algo.name
  · rw [if_neg (not_not_intro hf)]
    cases key with
    | rsa e n =>
      simp only [Sized, not_true_eq_false, false_and, iff_false]
      cases V.rsaVerify e n (V.sha1 data) sig.blob <;> exact nofun
    | dsa p q g y | ecdsa curve x y =>
      simp only [Sized, not_true_eq_false, false_and, iff_false]
      split
      · exact nofun
      · exact verified_ne_panic _
    | ed25519 key =>
      simp only [Sized]
      split
      · rename_i hlen
        exact iff_of_true rfl ⟨hlen, hf⟩
      · rename_i hlen
        exact iff_of_false (verified_ne_panic _) fun h => hlen h.1
  · rw [if_pos hf]
    refine iff_of_false nofun fun ⟨hs, hed⟩ => ?_
    cases key with
    | ed25519 => exact hf hed
    | _ => exact hs trivial

theorem RawKey.verify_ne_panic_iff {key : RawKey} :
    (∀ data sig, key.verify V data sig ≠ .panic) ↔ key.Sized := by
  refine ⟨fun h => ?_, fun hs data sig hp => (verify_eq_panic_iff.mp hp).1 hs⟩
  by_contra hs
  exact h [] ⟨ascii KeyAlgo.ed25519.name, []⟩ (verify_eq_panic_iff.mpr ⟨hs, rfl⟩)

def PublicKey.verifyingKey : PublicKey → RawKey
  | .raw key => key
  | .cert c _ => c.key

theorem PublicKey.verify_eq (key : PublicKey) (V : Verifiers) :
    key.verify V = key.verifyingKey.verify V := by
  cases key <;> rfl

def Certificate.ValidSometime (c : Certificate) : Prop :=
  0 ≤ int64 c.validAfter ∧
    (c.validBefore = certTimeInfinity ∨ int64 c.validAfter < int64 c.validBefore)

instance (c : Certificate) : Decidable c.ValidSometime := by
  unfold Certificate.ValidSometime; infer_instance

namespace CertChecker

theorem verify_of_checkCert_eq_panic {c : CertChecker ε} (hsig : cert.signature = some sig)
    (h : c.checkCert E V principal cert k = .panic) :
    cert.ValidSometime ∧ ∃ data, k.verify V data sig = .panic := by
  unfold checkCert at h
  split at h
  · cases h
  split at h
  · cases h
  split at h
  · cases h
  split at h
  · cases h
  rename_i hafter
  split at h
  · cases h
  rename_i hbefore
  rw [cert.bytesForSigning_eq, hsig] at h
  split at h
  · rename_i data s hd hs
    cases hs
    split at h
    · cases h
    · cases h
    rename_i hv
    refine ⟨⟨by omega, ?_⟩, data, hv⟩
    by_cases hinf : cert.validBefore = certTimeInfinity
    · exact .inl hinf
    · exact .inr (by grind)
  · rename_i hno
    exact (hno _ _ rfl rfl).elim

def lenient (cert : Certificate) : CertChecker Err where
  supportedCriticalOptions := cert.permissions.criticalOptions.keys.sort StringLe
  isHostAuthority _ _ := true
  clock := int64 cert.validAfter
  hostKeyFallback := none
  isRevoked := none

theorem unsupportedOption_lenient (cert : Certificate) :
    (lenient cert).unsupportedOption cert.permissions.criticalOptions = none := by
  unfold unsupportedOption lenient
  rw [List.find?_eq_none]
  intro opt hopt
  simp [hopt]

theorem checkCert_lenient (hsig : cert.signature = some sig) (hw : cert.ValidSometime)
    (hv : ∀ data, k.verify V data sig = .panic) :
    ∃ principal, (lenient cert).checkCert E V principal cert k = .panic := by
  refine ⟨cert.validPrincipals.headD [], ?_⟩
  have hprincipal : ¬(cert.validPrincipals.length > 0 ∧
      cert.validPrincipals.headD [] ∉ cert.validPrincipals) := by
    cases cert.validPrincipals with
    | nil => exact fun h => absurd h.1 (Nat.lt_irrefl 0)
    | cons p ps => exact fun h => h.2 List.mem_cons_self
  have hafter : ¬(int64 cert.validAfter < 0 ∨ (lenient cert).clock < int64 cert.validAfter) := by
    rintro (h | h)
    · exact absurd hw.1 (not_le.mpr h)
    · exact lt_irrefl _ h
  have hbefore : ¬(cert.validBefore ≠ certTimeInfinity ∧
      ((lenient cert).clock ≥ int64 cert.validBefore ∨ int64 cert.validBefore < 0)) := by
    rintro ⟨hinf, h⟩
    have hlt := hw.2.resolve_left hinf
    have h0 := hw.1
    change int64 cert.validAfter ≥ int64 cert.validBefore ∨ _ at h
    omega
  unfold checkCert
  rw [if_neg (by exact nofun), unsupportedOption_lenient]
  simp only [if_neg hprincipal, if_neg hafter, if_neg hbefore, cert.bytesForSigning_eq, hsig, hv]

theorem checkCert_ne_panic_iff (hsig : cert.signature = some sig) :
    (∀ (ε : Type) (c : CertChecker ε) principal, c.checkCert E V principal cert k ≠ .panic) ↔
      k.verifyingKey.Sized ∨ sig.format ≠ ascii ed25519.name ∨ ¬cert.ValidSometime := by
  constructor
  · intro h
    by_contra hno
    rw [not_or, not_or, not_not, not_not] at hno
    obtain ⟨hs, hf, hw⟩ := hno
    have hv : ∀ data, k.verify V data sig = .panic := by
      intro data
      rw [k.verify_eq, RawKey.verify_eq_panic_iff]
      exact ⟨hs, hf⟩
    obtain ⟨principal, hp⟩ := checkCert_lenient (E := E) hsig hw hv
    exact h _ _ principal hp
  · intro h ε c principal hp
    obtain ⟨hw, data, hv⟩ := verify_of_checkCert_eq_panic hsig hp
    rw [k.verify_eq, RawKey.verify_eq_panic_iff] at hv
    rcases h with hs | hf | hno
    · exact hv.1 hs
    · exact hf hv.2
    · exact hno hw

end CertChecker

namespace PublicKey

/-- No use of the key panics, whatever is signed and whoever checks a certificate. -/
structure SafeToUse (E : Elliptic) (V : Verifiers) (key : PublicKey) : Prop where
  marshal : key.marshal E ≠ none
  verify : ∀ data sig, key.verify V data sig ≠ .panic
  checkCert : ∀ c k, key = .cert c k → ∀ (ε : Type) (checker : CertChecker ε) principal,
    checker.checkCert E V principal c k ≠ .panic

/-- The keys that signatures are verified with have the length they need, but for one that
`CheckCert` never comes to use. -/
def Sized : PublicKey → Prop
  | .raw key => key.Sized
  | .cert c k => c.key.Sized ∧ (k.verifyingKey.Sized ∨
      c.signature.map Signature.format ≠ some (ascii ed25519.name) ∨ ¬c.ValidSometime)

instance (key : PublicKey) : Decidable key.Sized := by
  cases key <;> unfold Sized <;> infer_instance

theorem signed_of_parsePublicKey (h : parsePublicKey E b = .ok (.cert c k)) :
    ∃ sig, c.signature = some sig := by
  rcases parsePublicKey_eq_ok h with ⟨a, rest, key, -, -, hk⟩ | ⟨a, rest, -, hcert⟩
  · cases hk
  obtain ⟨nonce, rest₁, key, rest₂, g, c, k, -, -, -, -, hg, he⟩ := parseCert_eq_ok hcert
  cases he
  exact hg.signed

theorem safeToUse_iff (h : parsePublicKey E b = .ok key) : key.SafeToUse E V ↔ key.Sized := by
  have hm : key.marshal E ≠ none := by
    rw [marshal_eq_written]
    exact nofun
  cases key with
  | raw key =>
    refine ⟨fun hs => RawKey.verify_ne_panic_iff.mp hs.verify, fun hs => ⟨hm, ?_, nofun⟩⟩
    exact RawKey.verify_ne_panic_iff.mpr hs
  | cert c k =>
    obtain ⟨sig, hsig⟩ := signed_of_parsePublicKey h
    have hiff := CertChecker.checkCert_ne_panic_iff (E := E) (V := V) (k := k) hsig
    have hf : c.signature.map Signature.format ≠ some (ascii ed25519.name) ↔
        sig.format ≠ ascii ed25519.name := by
      rw [hsig, Option.map_some, ne_eq, Option.some_inj]
    constructor
    · intro hs
      refine ⟨RawKey.verify_ne_panic_iff.mp hs.verify, ?_⟩
      rw [hf]
      exact hiff.mp (hs.checkCert c k rfl)
    · rintro ⟨hkey, hk⟩
      rw [hf] at hk
      refine ⟨hm, RawKey.verify_ne_panic_iff.mpr hkey, ?_⟩
      rintro _ _ ⟨⟩
      exact hiff.mpr hk

def rejecting : Verifiers where
  sha1 _ := []
  ecHash _ _ := []
  rsaVerify _ _ _ _ := some (.text "crypto/rsa: verification error")
  dsaVerify _ _ _ _ _ _ _ := false
  ecdsaVerify _ _ _ _ _ _ := false
  ed25519Verify _ _ _ := false

def parsesTo (test : PublicKey → Bool) (b : Bytes) : Bool :=
  match parsePublicKey onePoint b with
  | .ok key => test key
  | _ => false

theorem exists_of_parsesTo (h : parsesTo test b = true) :
    ∃ key, parsePublicKey onePoint b = .ok key ∧ test key = true := by
  unfold parsesTo at h
  split at h
  · rename_i key hp
    exact ⟨key, hp, h⟩
  · cases h

theorem safeToUse_certificate :
    ∃ key, parsePublicKey onePoint (certBytes []) = .ok key ∧ key.SafeToUse onePoint rejecting := by
  have h : parsesTo (fun key => decide key.Sized) (certBytes []) = true := by decide +kernel
  obtain ⟨key, hp, hs⟩ := exists_of_parsesTo h
  exact ⟨key, hp, (safeToUse_iff hp).mpr (of_decide_eq_true hs)⟩

def panics (data : Bytes) (sig : Signature) (key : PublicKey) : Bool :=
  match key.verify rejecting data sig with
  | .panic => true
  | _ => false

/-- An Ed25519 key of one byte. -/
theorem verify_short_key :
    ∃ key, parsePublicKey onePoint (encodeString (ascii "ssh-ed25519") ++ encodeString [1]) =
        .ok key ∧ key.verify rejecting [] ⟨ascii "ssh-ed25519", []⟩ = .panic := by
  have h : parsesTo (panics [] ⟨ascii "ssh-ed25519", []⟩)
      (encodeString (ascii "ssh-ed25519") ++ encodeString [1]) = true := by decide +kernel
  obtain ⟨key, hp, hk⟩ := exists_of_parsesTo h
  refine ⟨key, hp, ?_⟩
  unfold panics at hk
  split at hk
  · assumption
  · cases hk

end PublicKey
end XCryptoSsh
