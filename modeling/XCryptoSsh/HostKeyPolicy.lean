import XCryptoSsh.KexTranscript

namespace XCryptoSsh
open Go Call Transport
set_option autoImplicit true

theorem hostKey_of_findAgreedAlgorithms (h : findAgreedAlgorithms client server = .ok algs) :
    algs.hostKey ∈ client.serverHostKeyAlgos := by
  simp only [findAgreedAlgorithms, except_bind_eq_ok] at h
  obtain ⟨kex, -, key, hk, _, -, _, -, _, -, _, -, _, -, _, -, h⟩ := h
  cases h
  exact (mem_of_findCommon hk).1

namespace Handshake

variable {κ : Type} {env : KexEnv κ} {h : Handshake}

/-- The negotiated type and the key in the reply, which is the first packet that the client does not
drop, or the second one after a wrong guess. -/
def presentedKey (env : KexEnv κ) (h : Handshake) (other : Bytes)
    (delivered : List (Except Err Bytes)) : Option (String × PublicKey) := do
  let otherInit ← (unmarshal kexInitMsg other).toOption
  let algs ← (findAgreedAlgorithms (kexInitOffers h.sentInitMsg) (kexInitOffers otherInit)).toOption
  let kex ← kexAlgoMap.lookup algs.kex
  let reply ← (delivered.filter (!noise ·))[(h.wrongGuess otherInit).toNat]?
  let packet ← reply.toOption
  let (hostKey, _) ← (kex.parseReply packet).toOption
  let key ← (parsePublicKey env.prims.elliptic hostKey).toOption
  pure (algs.hostKey, key)

theorem kept_of_skipGuess {t t' : Transport κ} (hskip : skipGuess wrong t = (.ok u, t')) (i : Nat) :
    (t.incoming.filter (!noise ·))[wrong.toNat + i]? =
      (t'.incoming.filter (!noise ·))[i]? := by
  cases wrong with
  | false =>
    cases hskip
    rw [Bool.toNat_false, Nat.zero_add]
  | true =>
    obtain ⟨p, t₁, h₁, h₂⟩ := bind_eq_ok.mp hskip
    cases h₂
    rw [kept_of_readPacket h₁, Bool.toNat_true, Nat.add_comm, List.getElem?_cons_succ]

theorem presentedKey_of_exchange (hc : h.isServer = false) {t t' : Transport κ}
    (hrun : h.exchange env other t = (.ok (algs, r), t')) :
    ∃ key, h.presentedKey env other t.incoming = some (algs.hostKey, key) ∧
      algs.hostKey ∈ (kexInitOffers h.sentInitMsg).serverHostKeyAlgos ∧
      Presents env r key ∧ h.hostKeyCallback key = none := by
  obtain ⟨otherInit, s, kex, result, hinit, halgs, hskip, hkex, hround, rfl, key, hkey, hcb⟩ :=
    (exchange_eq_ok hc).mp hrun
  obtain ⟨s₁, packet, hwrite, hread, hconclude⟩ := KexAlgorithm.client_eq_ok.mp hround
  obtain ⟨hostKey, y, sig, k, hparse, -, rfl⟩ := KexAlgorithm.conclude_eq_ok.mp hconclude
  have hreply : (t.incoming.filter (!noise ·))[(h.wrongGuess otherInit).toNat]? =
      some (.ok packet) := by
    rw [← Nat.add_zero (Bool.toNat _), kept_of_skipGuess hskip,
      ← (writePacket_eq_ok hwrite).2.1, kept_of_readPacket hread]
    rfl
  refine ⟨key, ?_, hostKey_of_findAgreedAlgorithms halgs, hkey, hcb⟩
  have hparsed : parsePublicKey env.prims.elliptic hostKey = .ok key := hkey.1
  simp [presentedKey, hinit, halgs, hkex, hreply, hparse, hparsed, Except.toOption]

/-- The callback refuses the key in the reply unless it has the negotiated type. -/
def KeepsType (env : KexEnv κ) (h : Handshake) (other : Bytes)
    (delivered : List (Except Err Bytes)) : Prop :=
  ∀ negotiated key, h.presentedKey env other delivered = some (negotiated, key) →
    key.type = negotiated ∨ h.hostKeyCallback key ≠ none

/-- Nothing compares the key that the server presents with the negotiated type: only the callback
can keep a client that completes to it. -/
theorem hostKey_type_iff (env : KexEnv κ) (h : Handshake) (hc : h.isServer = false) (other : Bytes)
    (t : Transport κ) (hrun : h.enterKeyExchange env other t = (.ok (algs, r), t')) :
    (algs.hostKey ∈ (kexInitOffers h.sentInitMsg).serverHostKeyAlgos ∧
      ∃ key, Presents env r key ∧ key.type = algs.hostKey) ↔ h.KeepsType env other t.incoming := by
  obtain ⟨s, hexchange, -⟩ := enterKeyExchange_eq_ok.mp hrun
  obtain ⟨key, hpresented, hmem, hkey, hcb⟩ := presentedKey_of_exchange hc hexchange
  constructor
  · rintro ⟨-, key', hkey', htype⟩ negotiated key'' hpresented'
    cases hpresented.symm.trans hpresented'
    cases hkey.1.symm.trans hkey'.1
    exact .inl htype
  · intro hkeeps
    refine ⟨hmem, key, hkey, ?_⟩
    rcases hkeeps _ key hpresented with htype | hrefused
    · exact htype
    · exact absurd hcb hrefused

/-- What a server that signs with its Ed25519 key answers to a client that agreed on `algo`. -/
def ed25519Reply (algo : String) : Bytes :=
  ((curve25519Server openEnv.prims ⟨0, 0, List.replicate 32 5⟩
    ((openHandshake algo []).magics (kexInitMsg.encode (openInit algo))) ed25519Signer
    (new () false
      [.ok (kexECDHInitMsg.encode (List.replicate 32 4, ()))])).2.outgoing).headD []

def keyType (key : Except Err PublicKey) : Option String := key.toOption.map PublicKey.type

def ed25519Run (algo : String) : Result Err (Algorithms × HostKexResult) × Transport Unit :=
  (openHandshake algo []).enterKeyExchange openEnv (kexInitMsg.encode (openInit algo))
    (new () true [.ok (ed25519Reply algo), .ok [21]])

/-- A client that offers only ssh-rsa and has agreed on it completes with an Ed25519 key. -/
theorem hostKey_type_ignored :
    ∃ algs r t' key, (openHandshake "ssh-rsa" []).enterKeyExchange openEnv
        (kexInitMsg.encode (openInit "ssh-rsa"))
        (new () true [.ok (ed25519Reply "ssh-rsa"), .ok [21]]) = (.ok (algs, r), t') ∧
      (kexInitOffers (openInit "ssh-rsa")).serverHostKeyAlgos = ["ssh-rsa"] ∧
      algs.hostKey = "ssh-rsa" ∧ Presents openEnv r key ∧ key.type = "ssh-ed25519" := by
  have hrun : ((ed25519Run "ssh-rsa").1.test fun a =>
      decide (a.1.hostKey = "ssh-rsa" ∧
        keyType (parsePublicKey openEnv.prims.elliptic a.2.hostKey) = some "ssh-ed25519")) =
          true := by
    decide +kernel
  obtain ⟨⟨algs, r⟩, t', hok, htest⟩ := exists_of_test hrun
  obtain ⟨halgs, htype⟩ := of_decide_eq_true htest
  obtain ⟨s, hex, -⟩ := enterKeyExchange_eq_ok.mp hok
  obtain ⟨key, -, -, hkey, -⟩ := presentedKey_of_exchange rfl hex
  refine ⟨algs, r, t', key, hok, by decide +kernel, halgs, hkey, ?_⟩
  rw [hkey.1] at htype
  exact Option.some.inj htype

theorem hostKey_type_iff_ed25519 :
    let h := openHandshake "ssh-ed25519" []
    let t := new () true [.ok (ed25519Reply "ssh-ed25519"), .ok [21]]
    ∃ algs r t', h.enterKeyExchange openEnv (kexInitMsg.encode (openInit "ssh-ed25519")) t =
        (.ok (algs, r), t') ∧
      ((algs.hostKey ∈ (kexInitOffers h.sentInitMsg).serverHostKeyAlgos ∧
          ∃ key, Presents openEnv r key ∧ key.type = algs.hostKey) ↔
        h.KeepsType openEnv (kexInitMsg.encode (openInit "ssh-ed25519")) t.incoming) := by
  have hrun : ((ed25519Run "ssh-ed25519").1.test fun _ => true) = true := by decide +kernel
  obtain ⟨⟨algs, r⟩, t', hok, -⟩ := exists_of_test hrun
  exact ⟨algs, r, t', hok, hostKey_type_iff openEnv _ rfl _ _ hok⟩

end Handshake
end XCryptoSsh
