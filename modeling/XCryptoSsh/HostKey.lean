import XCryptoSsh.KeysRoundTrip
import XCryptoSsh.Kex

namespace XCryptoSsh
open Go Call List
set_option autoImplicit true

namespace Handshake

variable {κ : Type} {env : KexEnv κ} {h : Handshake}

def Presents (env : KexEnv κ) (result : HostKexResult) (key : PublicKey) : Prop :=
  parsePublicKey env.prims.elliptic result.hostKey = .ok key ∧
    verifyHostKeySignature env key result = .ok ()

theorem checkHostKey_eq_ok {h₀ : Handshake} {s t : σ} : h₀.checkHostKey env result s = (.ok u, t) ↔
    s = t ∧ ∃ key, Presents env result key ∧ h₀.hostKeyCallback key = none := by
  rw [checkHostKey, bind_eq_ok]
  constructor
  · rintro ⟨key, s₁, h₁, h⟩
    obtain ⟨hkey, rfl⟩ := ofExcept_eq_ok.mp h₁
    obtain ⟨_, s₂, h₂, h⟩ := bind_eq_ok.mp h
    obtain ⟨hsig, rfl⟩ := ofResult_eq_ok.mp h₂
    cases hcb : h₀.hostKeyCallback key with
    | some e =>
      rw [hcb] at h
      cases h
    | none =>
      rw [hcb] at h
      exact ⟨(pure_eq_ok.mp h).2, key, ⟨hkey, hsig⟩, hcb⟩
  · rintro ⟨rfl, key, ⟨hkey, hsig⟩, hcb⟩
    refine ⟨key, s, ofExcept_eq_ok.mpr ⟨hkey, rfl⟩, bind_eq_ok.mpr ⟨(), s, ?_, ?_⟩⟩
    · exact ofResult_eq_ok.mpr ⟨hsig, rfl⟩
    · rw [hcb]
      rfl

theorem client_eq_ok {magics : HandshakeMagics} {t t' : Transport κ} :
    h.client env kex magics t = (.ok r, t') ↔
    kex.client env.prims h.rand magics t = (.ok r, t') ∧
      ∃ key, Presents env r key ∧ h.hostKeyCallback key = none := by
  rw [client, bind_eq_ok]
  constructor
  · rintro ⟨result, s, h₁, h⟩
    obtain ⟨_, s', h₂, h⟩ := bind_eq_ok.mp h
    obtain ⟨rfl, hkey⟩ := checkHostKey_eq_ok.mp h₂
    obtain ⟨rfl, rfl⟩ := pure_eq_ok.mp h
    exact ⟨h₁, hkey⟩
  · rintro ⟨h₁, hkey⟩
    exact ⟨r, t', h₁, bind_eq_ok.mpr ⟨(), t', checkHostKey_eq_ok.mpr ⟨rfl, hkey⟩, rfl⟩⟩

theorem exchange_eq_ok (hc : h.isServer = false) {t t' : Transport κ} :
    h.exchange env other t = (.ok (algs, r), t') ↔
      ∃ otherInit s kex result, unmarshal kexInitMsg other = .ok otherInit ∧
        findAgreedAlgorithms (kexInitOffers h.sentInitMsg) (kexInitOffers otherInit) = .ok algs ∧
        skipGuess (h.wrongGuess otherInit) t = (.ok (), s) ∧
        kexAlgoMap.lookup algs.kex = some kex ∧
        kex.client env.prims h.rand (h.magics other) s = (.ok result, t') ∧
        r = { result with sessionID := h.sessionID.getD result.H } ∧
        ∃ key, Presents env r key ∧ h.hostKeyCallback key = none := by
  rw [exchange, bind_eq_ok]
  simp only [hc, agreedAlgorithms, Bool.false_eq_true, if_false]
  constructor
  · rintro ⟨otherInit, s₁, h₁, h⟩
    obtain ⟨hinit, rfl⟩ := ofExcept_eq_ok.mp h₁
    obtain ⟨algs', halgs, h⟩ := ofExcept_bind_eq_ok.mp h
    obtain ⟨_, s₃, h₃, h⟩ := bind_eq_ok.mp h
    obtain ⟨kex, hkex, h⟩ := orFail_bind_eq_ok.mp h
    obtain ⟨result, s₅, h₅, h⟩ := bind_eq_ok.mp h
    obtain ⟨he, rfl⟩ := pure_eq_ok.mp h
    obtain ⟨rfl, rfl⟩ := Prod.mk.inj he
    obtain ⟨hrun, key, hkey, hcb⟩ := client_eq_ok.mp h₅
    exact ⟨otherInit, s₃, kex, result, hinit, halgs, h₃, hkex, hrun, rfl, key, hkey, hcb⟩
  · rintro ⟨otherInit, s, kex, result, hinit, halgs, hskip, hkex, hrun, rfl, key, hkey, hcb⟩
    refine ⟨otherInit, t, ofExcept_eq_ok.mpr ⟨hinit, rfl⟩, bind_eq_ok.mpr ⟨algs, t, ?_, ?_⟩⟩
    · exact ofExcept_eq_ok.mpr ⟨halgs, rfl⟩
    refine bind_eq_ok.mpr ⟨(), s, hskip, bind_eq_ok.mpr ⟨kex, s, ?_, ?_⟩⟩
    · exact orFail_eq_ok.mpr ⟨hkex, rfl⟩
    · exact bind_eq_ok.mpr ⟨result, t', client_eq_ok.mpr ⟨hrun, key, hkey, hcb⟩, rfl⟩

theorem enterKeyExchange_eq_ok {t t' : Transport κ} :
    h.enterKeyExchange env other t = (.ok r, t') ↔
      ∃ s, h.exchange env other t = (.ok r, s) ∧
        changeKeys env r.1 r.2.toKexResult s = (.ok (), t') := by
  rw [enterKeyExchange, bind_eq_ok]
  constructor
  · rintro ⟨r', s, h₁, h⟩
    obtain ⟨_, s', h₂, h⟩ := bind_eq_ok.mp h
    obtain ⟨rfl, rfl⟩ := pure_eq_ok.mp h
    exact ⟨s, h₁, h₂⟩
  · rintro ⟨s, h₁, h₂⟩
    exact ⟨r, s, h₁, bind_eq_ok.mpr ⟨(), t', h₂, rfl⟩⟩

def openHash : Hash := ⟨fun b => 0 :: b, fun _ => cons_ne_nil _ _⟩

/-- Primitives simple enough to run: a signature is the data itself. -/
def openEnv : KexEnv Unit where
  prims :=
    { elliptic := PublicKey.onePoint
      sha1 := openHash
      sha256 := openHash
      ecHash := fun _ => openHash
      prime := fun _ => 0
      isOnCurve := fun _ _ _ => false
      scalarBaseMult := fun _ _ => (0, 0)
      scalarMult := fun _ _ _ _ => 0
      x25519Base := fun priv => priv
      x25519 := fun _ _ => replicate 32 1 }
  verifiers :=
    { sha1 := fun b => b
      ecHash := fun _ b => b
      rsaVerify := fun _ _ data sig => if data = sig then none else some .eof
      dsaVerify := fun _ _ _ _ _ _ _ => false
      ecdsaVerify := fun _ _ _ _ _ _ => false
      ed25519Verify := fun _ data sig => data == sig }
  newCipher := fun _ _ => .ok ()

def ed25519Signer : Signer where
  publicKey := .raw (.ed25519 (replicate 32 7))
  sign := fun data => .ok ⟨ascii "ssh-ed25519", data⟩

theorem length_cookie : (replicate 16 (0 : UInt8)).length = 16 := rfl

def openInit (hostKeyAlgo : String) : Vals kexInitMsg.fields :=
  (⟨replicate 16 0, length_cookie⟩, [ascii "curve25519-sha256@libssh.org"], [ascii hostKeyAlgo],
    [ascii "aes128-ctr"], [ascii "aes128-ctr"], [ascii "hmac-sha1"], [ascii "hmac-sha1"],
    [ascii "none"], [ascii "none"], [], [], false, (0 : UInt32), ())

def openHandshake (hostKeyAlgo : String) (hostKeys : List Signer) : Handshake where
  clientVersion := ascii "SSH-2.0-c"
  serverVersion := ascii "SSH-2.0-s"
  hostKeys := hostKeys
  hostKeyCallback := fun _ => none
  sentInitMsg := openInit hostKeyAlgo
  sentInitPacket := kexInitMsg.encode (openInit hostKeyAlgo)
  sessionID := none
  rand := ⟨0, 0, replicate 32 4⟩

end Handshake
end XCryptoSsh
