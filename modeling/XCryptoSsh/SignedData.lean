import XCryptoSsh.ClientAuth
import XCryptoSsh.MessagesInjective
import XCryptoSsh.ServerAuthSound

namespace XCryptoSsh
open Go Call List Option StructType
set_option autoImplicit true

theorem encode_publickeyAuthMsg (user service method algo blob sig : Bytes) (hasSig : Bool) :
    publickeyAuthMsg.encode (user, service, method, hasSig, algo, blob, sig, ()) =
      userAuthRequestMsg.encode (user, service, method,
        (if hasSig then 1 else 0) :: (encodeString algo ++ (encodeString blob ++ sig)), ()) := by
  have hflag : Kind.bool.encode hasSig = [if hasSig then 1 else 0] := by cases hasSig <;> rfl
  change 50 :: (encodeString user ++ (encodeString service ++ (encodeString method ++
    (Kind.bool.encode hasSig ++ (encodeString algo ++ (encodeString blob ++ (sig ++ []))))))) =
    50 :: (encodeString user ++ (encodeString service ++ (encodeString method ++ (_ ++ []))))
  rw [hflag, append_nil, append_nil, singleton_append]
  rfl

def encodeSig (sig : Signature) : Bytes := encodeString sig.format ++ encodeString sig.blob

theorem encode_signatureWire (sig : Signature) :
    signatureWire.encode (sig.format, sig.blob, ()) = encodeSig sig := by
  change encodeString sig.format ++ (encodeString sig.blob ++ []) = _
  rw [append_nil, encodeSig]

def signedPayload (algo blob : Bytes) (sig : Signature) : Bytes :=
  1 :: (encodeString algo ++ (encodeString blob ++ encodeString (encodeSig sig)))

theorem signedPacket_eq_ok (h : signedPacket sign session user algo blob = .ok packet) :
    ∃ data sig, buildDataSignedForAuth session ⟨user, serviceSSH, ascii "publickey", []⟩ algo blob =
        some data ∧ sign data = .ok sig ∧
      packet = userAuthRequestMsg.encode
        (user, serviceSSH, ascii "publickey", signedPayload algo blob sig, ()) := by
  obtain ⟨data, h₁, h⟩ := Result.bind_eq_ok.mp h
  obtain ⟨sig, h₂, h⟩ := Result.bind_eq_ok.mp h
  obtain ⟨s, h₃, h⟩ := Result.bind_eq_ok.mp h
  refine ⟨data, sig, Result.ofOption_eq_ok.mp h₁, Result.ofExcept_eq_ok.mp h₂, ?_⟩
  have hs := some.inj ((marshal_eq _ _).symm.trans (Result.ofOption_eq_ok.mp h₃))
  have hp := some.inj ((marshal_eq _ _).symm.trans (Result.ofOption_eq_ok.mp h))
  rw [← hp, ← hs, encode_publickeyAuthMsg, encode_signatureWire]
  rfl

theorem eq_of_parseSignature (hl : (encodeSig sig).length < 2 ^ 32)
    (h : parseSignature (encodeString (encodeSig sig)) = some (sig', rest)) : sig' = sig := by
  have hl' := hl
  rw [encodeSig, length_append, length_encodeString, length_encodeString] at hl'
  unfold parseSignature at h
  split at h
  · cases h
  rename_i sigBytes r hs
  rw [← append_nil (encodeString _)] at hs
  obtain ⟨rfl, rfl⟩ := eq_of_parseString_encodeString hl hs
  split at h
  · rename_i out hout
    cases h
    rw [encodeSig, parseSignatureBody_encode (by rwa [← encodeSig])] at hout
    cases hout
    rfl
  · cases h

theorem parseSignature_encodeSig (hl : (encodeString (encodeSig sig)).length < 2 ^ 32) :
    parseSignature (encodeString (encodeSig sig)) = some (sig, []) := by
  rw [length_encodeString] at hl
  have hs : parseString (encodeString (encodeSig sig) ++ []) = some (encodeSig sig, []) :=
    parseString_of_fits (stringFits_of_length_lt (by rw [length_nil]; omega))
  rw [append_nil] at hs
  rw [parseSignature, hs]
  dsimp only
  rw [encodeSig, parseSignatureBody_encode (by rw [← encodeSig]; omega)]

theorem request_of_unmarshal (hu : user.length < 2 ^ 32)
    (h : unmarshal userAuthRequestMsg (userAuthRequestMsg.encode
      (user, serviceSSH, ascii "publickey", payload, ())) = .ok m) :
    UserAuthRequest.ofVals m = ⟨user, serviceSSH, ascii "publickey", payload⟩ := by
  have hservice : serviceSSH.length < 2 ^ 32 := by decide
  have hmethod : (ascii "publickey").length < 2 ^ 32 := by decide
  have hm := eq_of_unmarshal_encode (t := userAuthRequestMsg)
    (by simp [userAuthRequestMsg])
    ⟨Kind.short_of_contents rfl hu, Kind.short_of_contents rfl hservice,
      Kind.short_of_contents rfl hmethod, nofun, trivial⟩ h
  rw [hm]
  rfl

namespace AuthState

variable {ω : Type} {env : AuthEnv ω} {s : AuthState ω}

theorem authMethod_publickey {req : UserAuthRequest} (h : req.method = ascii "publickey") :
    authMethod env req = authPublicKey env req := by
  unfold authMethod
  rw [h, if_neg (by decide), if_neg (by decide), if_neg (by decide), if_pos rfl]

theorem authPublicKey_payload (req : UserAuthRequest)
    (hcb : env.config.publicKeyCallback = some callback)
    (hp : req.payload = flag :: (encodeString algo ++ (encodeString blob ++ rest)))
    (hl : req.payload.length < 2 ^ 32) (ha : isAcceptableAlgo algo = true) :
    authPublicKey env req s = (do
      let key ← Call.ofExcept (parsePublicKey env.elliptic blob)
      let candidate ← lookupPublicKey env callback blob key
      if flag = 0 then authQuery algo blob rest candidate
      else authSigned env req algo blob rest key candidate) s := by
  have hl := hl
  rw [hp, length_cons, length_append, length_append, length_encodeString,
    length_encodeString] at hl
  have h₁ : parseString (encodeString algo ++ (encodeString blob ++ rest)) =
      some (algo, encodeString blob ++ rest) := by
    apply parseString_of_fits
    apply stringFits_of_length_lt
    rw [length_append, length_encodeString]
    omega
  have h₂ : parseString (encodeString blob ++ rest) = some (blob, rest) :=
    parseString_of_fits (stringFits_of_length_lt (by omega))
  unfold authPublicKey
  rw [hcb, hp]
  dsimp only [head?_cons, tail_cons]
  rw [bind_of_ok (orFail_eq_ok.mpr ⟨rfl, rfl⟩), bind_of_ok (orFail_eq_ok.mpr ⟨h₁, rfl⟩), if_pos ha,
    bind_of_ok (orFail_eq_ok.mpr ⟨h₂, rfl⟩)]

theorem authSigned_eq (req : UserAuthRequest) (candidate : CachedPubKey)
    (hl : (encodeString (encodeSig sig)).length < 2 ^ 32)
    (hdata : buildDataSignedForAuth env.sessionID req algo blob = some data)
    (hf : isAcceptableAlgo sig.format = true) :
    authSigned env req algo blob (encodeString (encodeSig sig)) key candidate s = (do
      ofResult (key.verify env.verifiers data sig)
      pure (AuthOutcome.judged candidate.result candidate.perms)) s := by
  have hsig : parseSignatureOnly (encodeString (encodeSig sig)) = .ok sig := by
    rw [parseSignatureOnly, parseSignature_encodeSig hl]
  rw [authSigned, bind_of_ok (ofExcept_eq_ok.mpr ⟨hsig, rfl⟩), if_pos hf,
    bind_of_ok (inRange_eq_ok.mpr ⟨hdata, rfl⟩)]

theorem authSigned_congr {req : UserAuthRequest} (hs : (encodeSig sig).length < 2 ^ 32)
    (hdata : buildDataSignedForAuth env.sessionID req algo blob = some data)
    (hv : key.verify verifiers data sig = key.verify env.verifiers data sig) :
    authSigned { env with verifiers } req algo blob (encodeString (encodeSig sig)) key candidate s =
      authSigned env req algo blob (encodeString (encodeSig sig)) key candidate s := by
  refine bind_congr_at fun sig' s₁ h => ?_
  obtain ⟨hsig, rfl⟩ := ofExcept_eq_ok.mp h
  have heq : sig' = sig := by
    unfold parseSignatureOnly at hsig
    split at hsig
    · rename_i hparse
      cases hsig
      exact eq_of_parseSignature hs hparse
    · cases hsig
  subst heq
  split
  · refine bind_congr_at fun data' s₁ h => ?_
    obtain ⟨hd, rfl⟩ := inRange_eq_ok.mp h
    cases hdata.symm.trans hd
    dsimp only
    rw [hv]
  · rfl

theorem authPublicKey_congr {req : UserAuthRequest} (hp : req.payload = signedPayload algo blob sig)
    (ha : algo.length < 2 ^ 32) (hb : blob.length < 2 ^ 32) (hs : (encodeSig sig).length < 2 ^ 32)
    (hdata : buildDataSignedForAuth env.sessionID req algo blob = some data)
    (hv : ∀ key : PublicKey, key.verify verifiers data sig = key.verify env.verifiers data sig) :
    authPublicKey { env with verifiers } req s = authPublicKey env req s := by
  unfold authPublicKey
  rw [hp]
  dsimp only
  cases env.config.publicKeyCallback with
  | none => rfl
  | some callback =>
    refine bind_congr_at fun flag s₁ h => ?_
    obtain ⟨-, rfl⟩ := orFail_eq_ok.mp h
    refine bind_congr_at fun r s₁ h => ?_
    obtain ⟨halgo, rfl⟩ := orFail_eq_ok.mp h
    obtain ⟨hr, hrest⟩ := eq_of_parseString_encodeString ha halgo
    by_cases haccept : isAcceptableAlgo r.1 = true
    · rw [if_pos haccept, if_pos haccept]
      refine bind_congr_at fun r' s₁ h => ?_
      obtain ⟨hblob, rfl⟩ := orFail_eq_ok.mp h
      rw [hrest] at hblob
      obtain ⟨hr', hrest'⟩ := eq_of_parseString_encodeString hb hblob
      refine bind_congr_at fun key s₁ _ => bind_congr_at fun candidate s₂ _ => ?_
      by_cases hflag : flag = 0
      · rw [if_pos hflag, if_pos hflag]
      · rw [if_neg hflag, if_neg hflag, hr, hr', hrest']
        exact authSigned_congr hs hdata (hv key)
    · rw [if_neg haccept, if_neg haccept]

end AuthState

/-- What goes into the signed data is shorter than 2^32 bytes, each for itself. -/
def ShortParts (session : Bytes) (req : UserAuthRequest) (algo pubKey : Bytes) : Prop :=
  ∀ b ∈ [session, req.user, req.service, req.method, algo, pubKey], b.length < 2 ^ 32

instance : Decidable (ShortParts session req algo pubKey) :=
    inferInstanceAs (Decidable (∀ b ∈ _, _))

theorem ShortParts.fields (h : ShortParts session req algo blob) :
    FieldsShort signedForAuth.fields (session, msgUserAuthRequest, req.user, req.service,
      req.method,
      true, algo, blob, ()) := by
  have short {k : Kind} {v : k.Val} {b : Bytes} (hk : k.contents v = some b)
      (hb : b ∈ [session, req.user, req.service, req.method, algo, blob]) : k.Short v :=
    Kind.short_of_contents hk (h b hb)
  exact ⟨short rfl (by simp), nofun, short rfl (by simp), short rfl (by simp), short rfl (by simp),
    nofun, short rfl (by simp), short rfl (by simp), trivial⟩

open AuthState

theorem buildDataSignedForAuth_inj (h₁ : ShortParts s₁ r₁ a₁ b₁) (h₂ : ShortParts s₂ r₂ a₂ b₂)
    (h : buildDataSignedForAuth s₁ r₁ a₁ b₁ = buildDataSignedForAuth s₂ r₂ a₂ b₂) :
    s₁ = s₂ ∧ r₁.user = r₂.user ∧ r₁.service = r₂.service ∧ r₁.method = r₂.method ∧ a₁ = a₂ ∧
      b₁ = b₂ := by
  have h := (marshal_eq _ _).symm.trans (h.trans (marshal_eq _ _))
  have hvals := encode_inj (t := signedForAuth)
    (by simp [signedForAuth, wireStruct, Kind.delimited]) h₁.fields h₂.fields (some.inj h)
  exact ⟨congrArg (·.1) hvals, congrArg (·.2.2.1) hvals, congrArg (·.2.2.2.1) hvals,
    congrArg (·.2.2.2.2.1) hvals, congrArg (·.2.2.2.2.2.2.1) hvals,
    congrArg (·.2.2.2.2.2.2.2.1) hvals⟩

/-- The server verifies exactly the data that the client signed, rebuilt from the request; and no
two different requests share it. -/
theorem signedData_agree {ω : Type} (env : AuthEnv ω) :
    (∀ sign user algo blob packet,
      let req : UserAuthRequest := ⟨user, serviceSSH, ascii "publickey", []⟩
      ShortParts env.sessionID req algo blob →
      (∀ data sig, buildDataSignedForAuth env.sessionID req algo blob = some data →
        sign data = .ok sig → (encodeSig sig).length < 2 ^ 32) →
      signedPacket sign env.sessionID user algo blob = .ok packet →
      ∃ data sig, buildDataSignedForAuth env.sessionID req algo blob = some data ∧
        sign data = .ok sig ∧
        (∀ m verifiers s, unmarshal userAuthRequestMsg packet = .ok m →
          (∀ key : PublicKey, key.verify verifiers data sig = key.verify env.verifiers data sig) →
          authMethod { env with verifiers } (.ofVals m) s = authMethod env (.ofVals m) s) ∧
        ∀ callback key s, packet.length < 2 ^ 32 → isAcceptableAlgo algo = true →
          isAcceptableAlgo sig.format = true → env.config.publicKeyCallback = some callback →
          parsePublicKey env.elliptic blob = .ok key →
          ∃ m, unmarshal userAuthRequestMsg packet = .ok m ∧
            authMethod env (.ofVals m) s = (do
              let candidate ← lookupPublicKey env callback blob key
              ofResult (key.verify env.verifiers data sig)
              pure (AuthOutcome.judged candidate.result candidate.perms)) s) ∧
    ∀ s₁ r₁ a₁ b₁ s₂ r₂ a₂ b₂, ShortParts s₁ r₁ a₁ b₁ → ShortParts s₂ r₂ a₂ b₂ →
      buildDataSignedForAuth s₁ r₁ a₁ b₁ = buildDataSignedForAuth s₂ r₂ a₂ b₂ →
      s₁ = s₂ ∧ r₁.user = r₂.user ∧ r₁.service = r₂.service ∧ r₁.method = r₂.method ∧ a₁ = a₂ ∧
        b₁ = b₂ := by
  constructor
  · intro sign user algo blob packet req hparts hsig hp
    obtain ⟨data, sig, hdata, hsign, rfl⟩ := signedPacket_eq_ok hp
    have hu : user.length < 2 ^ 32 := hparts user (by simp [req])
    refine ⟨data, sig, hdata, hsign, ?_, ?_⟩
    · intro m verifiers s hm hv
      rw [request_of_unmarshal hu hm, authMethod_publickey rfl, authMethod_publickey rfl]
      exact authPublicKey_congr rfl (hparts algo (by simp)) (hparts blob (by simp))
        (hsig data sig hdata hsign) hdata hv
    · intro callback key s hl ha hf hcb hk
      have hm := unmarshal_encode_of_length_lt (t := userAuthRequestMsg) rfl (by decide)
        (by simp [userAuthRequestMsg]) hl
      have hl' : (signedPayload algo blob sig).length < 2 ^ 32 :=
        lt_of_le_of_lt (le_append _ (le_append _ (le_append _ (le_append _ (le_append_left _))))) hl
      have hsl : (encodeString (encodeSig sig)).length < 2 ^ 32 := by
        rw [signedPayload, length_cons, length_append, length_append] at hl'
        omega
      refine ⟨_, hm, ?_⟩
      rw [request_of_unmarshal hu hm, authMethod_publickey rfl,
        authPublicKey_payload _ hcb rfl hl' ha, bind_of_ok (ofExcept_eq_ok.mpr ⟨hk, rfl⟩)]
      refine bind_congr_at fun candidate s' _ => ?_
      rw [if_neg (by decide)]
      exact authSigned_eq _ candidate hsl hdata hf
  · intro s₁ r₁ a₁ b₁ s₂ r₂ a₂ b₂ h₁ h₂
    exact buildDataSignedForAuth_inj h₁ h₂

def ServerAuth.rootSign (data : Bytes) : Except Err Signature := .ok ⟨ascii "ssh-ed25519", data⟩

open ServerAuth in
theorem signedData_agree_root :
    ∃ packet data sig m callback, ∃ key : PublicKey,
      signedPacket rootSign rootEnv.sessionID (ascii "root") (ascii "ssh-ed25519") rootBlob =
        .ok packet ∧
      buildDataSignedForAuth rootEnv.sessionID ⟨ascii "root", serviceSSH, ascii "publickey", []⟩
        (ascii "ssh-ed25519") rootBlob = some data ∧
      rootSign data = .ok sig ∧ unmarshal userAuthRequestMsg packet = .ok m ∧
      authMethod rootEnv (.ofVals m) (.new ⟨[], [], fun _ => none⟩ 0) = (do
        let candidate ← lookupPublicKey rootEnv callback rootBlob key
        ofResult (key.verify rootEnv.verifiers data sig)
        pure (AuthOutcome.judged candidate.result candidate.perms))
        (.new ⟨[], [], fun _ => none⟩ 0) := by
  have hkey : parsePublicKey rootEnv.elliptic rootBlob =
      .ok (.raw (.ed25519 (replicate 32 7))) :=
    PublicKey.parsePublicKey_encode (k := .raw (.ed25519 (replicate 32 7))) trivial
      (by decide +kernel)
  have hpacket : (signedPacket rootSign rootEnv.sessionID (ascii "root") (ascii "ssh-ed25519")
      rootBlob).test (fun p => decide (p.length < 2 ^ 32)) = true := by decide +kernel
  have hlen : (buildDataSignedForAuth rootEnv.sessionID
      ⟨ascii "root", serviceSSH, ascii "publickey", []⟩ (ascii "ssh-ed25519") rootBlob).all
      (fun d => decide ((encodeSig ⟨ascii "ssh-ed25519", d⟩).length < 2 ^ 32)) = true := by
    decide +kernel
  cases hp : signedPacket rootSign rootEnv.sessionID (ascii "root") (ascii "ssh-ed25519") rootBlob
    with
  | error e =>
    rw [hp] at hpacket
    cases hpacket
  | panic =>
    rw [hp] at hpacket
    cases hpacket
  | ok packet =>
    rw [hp] at hpacket
    have halgo : isAcceptableAlgo (ascii "ssh-ed25519") = true := by decide +kernel
    obtain ⟨data, sig, hdata, hsign, -, hreach⟩ := (signedData_agree rootEnv).1 rootSign
      (ascii "root") (ascii "ssh-ed25519") rootBlob packet (by decide +kernel)
      (by
        intro data sig hd hs
        rw [hd] at hlen
        cases hs
        exact of_decide_eq_true hlen) hp
    obtain ⟨m, hm, heq⟩ := hreach _ _ _ (of_decide_eq_true hpacket) halgo
      (by
        cases hsign
        exact halgo) rfl hkey
    exact ⟨packet, data, sig, m, _, _, rfl, hdata, hsign, hm, heq⟩

end XCryptoSsh
