import XCryptoSsh.KexTranscript

namespace XCryptoSsh
open Go Call List Transport
set_option autoImplicit true

/-- The laws of the curves: scalar multiplication commutes, and a point that was marshalled is read
back. -/
structure KexPrimitives.Lawful (P : KexPrimitives) : Prop where
  scalarMult_comm : ∀ curve a b,
    P.scalarMult curve (P.scalarBaseMult curve a).1 (P.scalarBaseMult curve a).2 b =
      P.scalarMult curve (P.scalarBaseMult curve b).1 (P.scalarBaseMult curve b).2 a
  unmarshal_marshal : ∀ curve a, P.elliptic.unmarshal curve
    (P.elliptic.marshal curve (P.scalarBaseMult curve a).1 (P.scalarBaseMult curve a).2) =
      some (P.scalarBaseMult curve a)
  x25519_comm : ∀ a b, P.x25519 a (P.x25519Base b) = P.x25519 b (P.x25519Base a)

theorem pow_mod_comm (g p a b : Nat) : (g ^ a % p) ^ b % p = (g ^ b % p) ^ a % p := by
  calc (g ^ a % p) ^ b % p = (g ^ a) ^ b % p := (Nat.pow_mod _ _ _).symm
    _ = (g ^ b) ^ a % p := by rw [← pow_mul, ← pow_mul, Nat.mul_comm]
    _ = (g ^ b % p) ^ a % p := Nat.pow_mod _ _ _

theorem diffieHellman_eq_ok (h : diffieHellman p (n : Nat) a = .ok k) : k = (n ^ a % p : Nat) := by
  unfold diffieHellman at h
  split at h
  · cases h
  · cases h
    rfl

theorem diffieHellman_of_lt (h₁ : 1 < n) (h₂ : n + 1 < p) :
    diffieHellman p (n : Nat) a = .ok (n ^ a % p : Nat) := by
  rw [diffieHellman, if_neg (by omega)]
  rfl

namespace KexAlgorithm

variable {P : KexPrimitives} {a b : KexRandom}

theorem secret_comm (hP : P.Lawful) {kex : KexAlgorithm}
    (h : kex.secret P a (kex.ownPublic P b) = .ok k)
    (h' : kex.secret P b (kex.ownPublic P a) = .ok k') : k = k' := by
  cases kex with
  | dhGroup g p =>
    rw [diffieHellman_eq_ok h, diffieHellman_eq_ok h', pow_mod_comm]
  | ecdh curve =>
    have point (c : KexRandom) {x y : Int}
        (hc : unmarshalECKey P curve (ephemeralKey P c curve) = .ok (x, y)) :
        (x, y) = P.scalarBaseMult curve c.scalar := by
      unfold unmarshalECKey ephemeralKey at hc
      rw [hP.unmarshal_marshal] at hc
      dsimp only at hc
      split at hc
      · cases hc
        rfl
      · cases hc
    obtain ⟨⟨x, y⟩, h₁, h⟩ := except_bind_eq_ok.mp h
    obtain ⟨⟨x', y'⟩, h₁', h'⟩ := except_bind_eq_ok.mp h'
    cases h
    cases h'
    have hb := point b h₁
    have ha := point a h₁'
    have hcomm := hP.scalarMult_comm curve b.scalar a.scalar
    rw [← hb, ← ha] at hcomm
    exact hcomm
  | curve25519sha256 =>
    obtain ⟨s, h₁, h⟩ := except_bind_eq_ok.mp h
    obtain ⟨s', h₁', h'⟩ := except_bind_eq_ok.mp h'
    cases h
    cases h'
    have secret (c d : KexRandom) {s : Bytes}
        (hs : curve25519Secret P c (P.x25519Base d.priv) = .ok s) :
        s = P.x25519 c.priv (P.x25519Base d.priv) := by
      unfold curve25519Secret at hs
      split at hs
      · cases hs
      dsimp only at hs
      split at hs
      · cases hs
      · cases hs
        rfl
    rw [secret a b h₁, secret b a h₁', hP.x25519_comm]

end KexAlgorithm

namespace Transport

variable {κ : Type} {t t' : Transport κ}

theorem readPacket_outgoing (h : readPacket t = (.ok packet, t')) : t'.outgoing = t.outgoing := by
  obtain ⟨-, rfl⟩ := ofExcept_eq_ok.mp h
  rfl

theorem readPacket_next (hin : t.incoming = .ok (x :: body) :: rest)
    (hx : x ∉ [msgNewKeys, msgDisconnect, msgIgnore, msgDebug]) :
    readPacket t = (.ok (x :: body),
      { t with reader := { t.reader with seqNum := t.reader.seqNum + 1 }, incoming := rest }) := by
  simp only [mem_cons, not_mem_nil, not_or, or_false] at hx
  have hread : t.reader.readPacket (.ok (x :: body)) =
      (.ok (x :: body), { t.reader with seqNum := t.reader.seqNum + 1 }) := by
    rw [ConnectionState.readPacket]
    dsimp only
    rw [ConnectionState.received, if_neg hx.1, if_neg hx.2.1]
  have hskip : ¬ ((x :: body).head? = some msgIgnore ∨ (x :: body).head? = some msgDebug) := by
    simp [hx]
  rw [readPacket, hin, readFrom, hread]
  dsimp only
  rw [if_neg hskip]
  rfl

theorem writePacket_next (hx : x ≠ msgNewKeys) :
    writePacket (x :: body) t = (.ok (), { t with
      writer := { t.writer with seqNum := t.writer.seqNum + 1 }
      outgoing := t.outgoing ++ [x :: body] }) := by
  have hw : t.writer.writePacket (x :: body) =
      some { t.writer with seqNum := t.writer.seqNum + 1 } := by
    rw [ConnectionState.writePacket, if_neg (by simp [hx])]
  rw [writePacket, hw]

end Transport

theorem KexAlgorithm.initPacket_cons (kex : KexAlgorithm) (x : kex.Public) :
    ∃ body, kex.initPacket x = 30 :: body := by
  cases kex <;> exact ⟨_, rfl⟩

theorem KexAlgorithm.replyPacket_cons (kex : KexAlgorithm) (hostKey sig : Bytes) (y : kex.Public) :
    ∃ body, kex.replyPacket hostKey sig y = 31 :: body := by
  cases kex <;> exact ⟨_, rfl⟩

theorem KexAlgorithm.exists_run {kex : KexAlgorithm}
    (ha : kex.answer P b magics priv (kex.initPacket (kex.ownPublic P a)) = .ok (reply, rs))
    (hc : kex.conclude P a magics reply = .ok rc) (hreply : reply = 31 :: body) :
    ∃ tc tc' ts ts' : Transport Unit, kex.client P a magics tc = (.ok rc, tc') ∧
      kex.server P b magics priv ts = (.ok rs, ts') ∧
      tc'.outgoing = tc.outgoing ++ [kex.initPacket (kex.ownPublic P a)] ∧
      ts'.outgoing = ts.outgoing ++ [reply] ∧
      ts.incoming = .ok (kex.initPacket (kex.ownPublic P a)) :: ts'.incoming ∧
      tc.incoming = .ok reply :: tc'.incoming := by
  obtain ⟨init, hinit⟩ := kex.initPacket_cons (kex.ownPublic P a)
  let tc : Transport Unit := .new () true [.ok reply]
  let ts : Transport Unit := .new () false [.ok (kex.initPacket (kex.ownPublic P a))]
  have hw : ∃ t, writePacket (kex.initPacket (kex.ownPublic P a)) tc = (.ok (), t) ∧
      t.incoming = [.ok reply] ∧ t.outgoing = [kex.initPacket (kex.ownPublic P a)] := by
    rw [hinit]
    exact ⟨_, writePacket_next (by decide), rfl, rfl⟩
  have hr : ∃ t, readPacket ts = (.ok (kex.initPacket (kex.ownPublic P a)), t) ∧
      t.incoming = [] ∧ t.outgoing = [] := by
    have hin : ts.incoming = [.ok (30 :: init)] := congrArg (fun p => [Except.ok p]) hinit
    rw [hinit]
    exact ⟨_, readPacket_next hin (by decide), rfl, rfl⟩
  obtain ⟨t₁, hw, hin₁, hout₁⟩ := hw
  obtain ⟨t₂, hr, hin₂, hout₂⟩ := hr
  have hr' : ∃ t, readPacket t₁ = (.ok reply, t) ∧ t.incoming = [] ∧
      t.outgoing = t₁.outgoing := by
    rw [hreply] at hin₁ ⊢
    exact ⟨_, readPacket_next hin₁ (by decide), rfl, rfl⟩
  have hw' : ∃ t, writePacket reply t₂ = (.ok (), t) ∧ t.incoming = t₂.incoming ∧
      t.outgoing = t₂.outgoing ++ [reply] := by
    rw [hreply]
    exact ⟨_, writePacket_next (by decide), rfl, rfl⟩
  obtain ⟨tc', hr', hin', hout'⟩ := hr'
  obtain ⟨ts', hw', hin, hout⟩ := hw'
  refine ⟨tc, tc', ts, ts', client_eq_ok.mpr ⟨t₁, reply, hw, hr', hc⟩,
    server_eq_ok.mpr ⟨t₂, _, reply, hr, ha, hw'⟩, hout'.trans hout₁, ?_, ?_, ?_⟩
  · rw [hout, hout₂]
    rfl
  · rw [hin, hin₂]
    rfl
  · rw [hin']
    rfl

/-- A client and a server between which packets are delivered unchanged agree on the secret, the
exchange hash and the host key. -/
theorem KexAlgorithm.agree_of_delivered {κ κ' : Type} (P : KexPrimitives) (hP : P.Lawful)
    (kex : KexAlgorithm) (magics : HandshakeMagics) (a b : KexRandom) (priv : Signer)
    (tc tc' : Transport κ) (ts ts' : Transport κ') (rc rs : HostKexResult)
    (hc : kex.client P a magics tc = (.ok rc, tc'))
    (hs : kex.server P b magics priv ts = (.ok rs, ts'))
    (sent answered : List Bytes) (hsent : tc'.outgoing = tc.outgoing ++ sent)
    (hanswered : ts'.outgoing = ts.outgoing ++ answered)
    (hin : ts.incoming = sent.map .ok ++ ts'.incoming)
    (hin' : tc.incoming = answered.map .ok ++ tc'.incoming)
    (hl : ∀ packet ∈ sent ++ answered, packet.length < 2 ^ 32) :
    rc.K = rs.K ∧ rc.H = rs.H ∧ rc.hostKey = rs.hostKey := by
  obtain ⟨t₁, packet, hw, hr, hcon⟩ := client_eq_ok.mp hc
  obtain ⟨t₂, packet', reply, hr', hans, hw'⟩ := server_eq_ok.mp hs
  obtain ⟨x, k', hostKey', sig', hparse', hsecret', hkey, -, rfl, rfl⟩ := answer_eq_ok.mp hans
  obtain ⟨hostKey, y, sig, k, hparse, hsecret, rfl⟩ := conclude_eq_ok.mp hcon
  obtain ⟨hout, htin, -⟩ := writePacket_eq_ok hw
  obtain ⟨hout', -⟩ := writePacket_eq_ok hw'
  -- each side has sent one packet
  have hs₁ : sent = [kex.initPacket (kex.ownPublic P a)] := by
    rw [readPacket_outgoing hr, hout] at hsent
    exact (append_cancel_left hsent).symm
  have hs₂ : answered = [kex.replyPacket hostKey' sig' (kex.ownPublic P b)] := by
    rw [hout', readPacket_outgoing hr'] at hanswered
    exact (append_cancel_left hanswered).symm
  subst sent answered
  have hp' : packet' = kex.initPacket (kex.ownPublic P a) := by
    obtain ⟨body, hbody⟩ := kex.initPacket_cons (kex.ownPublic P a)
    rw [hbody] at hin ⊢
    rw [readPacket_next hin (by decide)] at hr'
    exact (Result.ok.inj (congrArg Prod.fst hr')).symm
  have hp : packet = kex.replyPacket hostKey' sig' (kex.ownPublic P b) := by
    obtain ⟨body, hbody⟩ := kex.replyPacket_cons hostKey' sig' (kex.ownPublic P b)
    rw [hbody] at hin' ⊢
    rw [readPacket_next (htin.trans hin') (by decide)] at hr
    exact (Result.ok.inj (congrArg Prod.fst hr)).symm
  -- so each has what the other sent
  rw [hp', parseInit_initPacket (hl _ (by simp))] at hparse'
  cases hparse'
  rw [hp, parseReply_replyPacket (hl _ (by simp))] at hparse
  cases hparse
  cases secret_comm hP hsecret hsecret'
  exact ⟨rfl, rfl, rfl⟩

namespace KexAlgorithm

open Handshake

theorem lawful_openEnv : openEnv.prims.Lawful :=
  ⟨fun _ _ _ => rfl, fun _ _ => rfl, fun _ _ => rfl⟩

def smallMagics : HandshakeMagics := ⟨[1], [2], [20], [20]⟩

def smallClient (reply : Bytes) : Result Err HostKexResult × Transport Unit :=
  client openEnv.prims ⟨6, 0, []⟩ smallMagics (.dhGroup 5 23) (new () true [.ok reply])

def smallServer (init : Bytes) : Result Err HostKexResult × Transport Unit :=
  server openEnv.prims ⟨15, 0, []⟩ smallMagics ed25519Signer (.dhGroup 5 23)
    (new () false [.ok init])

end KexAlgorithm

namespace KexAlgorithm

/-- A host key of 2^32 bytes, whose length is written as 0, and which begins with a public value and
a length of 2^32 - 1. -/
def longKey (pad : Bytes) : Bytes :=
  encodeString (intContents (2 ^ 72)) ++ (putUint32 (2 ^ 32 - 1) ++ pad)

def longSigner (pad : Bytes) : Signer := ⟨.raw (.ed25519 (longKey pad)), fun _ => .ok ⟨[], []⟩⟩

def shortHostKey : Bytes := encodeString (ascii "ssh-ed25519") ++ putUint32 0

def longSignature (pad : Bytes) : Bytes :=
  pad ++ (encodeString (intContents 2) ++ encodeString (encodeString [] ++ encodeString []))

theorem length_longKey (hpad : pad.length = 2 ^ 32 - 18) : (longKey pad).length = 2 ^ 32 := by
  have hy : (encodeString (intContents (2 ^ 72))).length = 14 := by decide +kernel
  rw [longKey, length_append, length_append, length_putUint32, hpad, hy]
  norm_num

theorem length_longSignature (hpad : pad.length = 2 ^ 32 - 18) :
    (longSignature pad).length = 2 ^ 32 - 1 := by
  have hy : (encodeString (intContents 2) ++
      encodeString (encodeString [] ++ encodeString [])).length = 17 := by decide +kernel
  rw [longSignature, length_append, hpad, hy]
  norm_num

theorem replyPacket_long (hpad : pad.length = 2 ^ 32 - 18) :
    (dhGroup 2 dhGroup14P).replyPacket (encodeString (ascii "ssh-ed25519") ++
      encodeString (longKey pad))
        (encodeString [] ++ encodeString []) (2 : Int) =
      (dhGroup 2 dhGroup14P).replyPacket shortHostKey (longSignature pad) ((2 : Int) ^ 72) := by
  have h₁ : encodeString (encodeString (ascii "ssh-ed25519") ++ encodeString (longKey pad)) =
      putUint32 shortHostKey.length ++ (encodeString (ascii "ssh-ed25519") ++
        encodeString (longKey pad)) := by
    have hname : (encodeString (ascii "ssh-ed25519")).length = 15 := by decide +kernel
    rw [encodeString, length_append, hname, length_encodeString, length_longKey hpad,
      ← putUint32_u32 (15 + _)]
    rfl
  have h₂ : encodeString (longKey pad) = putUint32 0 ++ longKey pad := by
    rw [encodeString, length_longKey hpad, ← putUint32_u32]
    rfl
  have h₃ : encodeString (longSignature pad) = putUint32 (2 ^ 32 - 1) ++ longSignature pad := by
    rw [encodeString, length_longSignature hpad]
  change 31 :: (encodeString _ ++ (encodeString (intContents 2) ++ (encodeString _ ++ []))) =
    31 :: (encodeString shortHostKey ++ (encodeString (intContents (2 ^ 72)) ++
      (encodeString (longSignature pad) ++ [])))
  rw [h₁, h₂, h₃, encodeString.eq_def shortHostKey, shortHostKey, longKey, longSignature]
  simp only [append_assoc, append_nil]

theorem parseReply_long (hpad : pad.length = 2 ^ 32 - 18) :
    (dhGroup 2 dhGroup14P).parseReply ((dhGroup 2 dhGroup14P).replyPacket shortHostKey
      (longSignature pad) ((2 : Int) ^ 72)) = .ok
        (shortHostKey, (2 : Int) ^ 72, longSignature pad) := by
  have hkey : shortHostKey.length = 19 := by decide +kernel
  have hy : (intContents (2 ^ 72)).length = 10 := by decide +kernel
  have hsig := length_longSignature hpad
  have hadmits : kexDHReplyMsg.Admits (shortHostKey, (2 : Int) ^ 72, longSignature pad, ()) := by
    refine ⟨cons_ne_nil _ _, ?_, trivial, ?_, trivial⟩
    · change shortHostKey.length < 2 ^ 32
      omega
    · change (longSignature pad).length < 2 ^ 32
      omega
  have hfits : kexDHReplyMsg.Fits (shortHostKey, (2 : Int) ^ 72, longSignature pad, ()) := by
    have fits {k : Kind} {v : k.Val} {c after : Bytes} (hc : k.contents v = some c)
        (h : StringFits c after) : k.Fits v after := by
      intro c' hc'
      cases hc.symm.trans hc'
      exact h
    have hlast : (encodeString (longSignature pad) ++ []).length = 2 ^ 32 + 3 := by
      rw [append_nil, length_encodeString, hsig]
      norm_num
    have hafter : (encodeString (intContents (2 ^ 72)) ++
        (encodeString (longSignature pad) ++ [])).length = 2 ^ 32 + 17 := by
      rw [length_append, hlast, length_encodeString, hy]
      norm_num
    refine ⟨by decide, fits rfl ?_, fits rfl ?_, fits rfl ?_, trivial⟩
    · change shortHostKey.length < _ ∧ shortHostKey.length ≤ u32 (shortHostKey.length + length
        (encodeString (intContents (2 ^ 72)) ++ (encodeString (longSignature pad) ++ [])))
      rw [hafter, hkey]
      decide
    · change (intContents (2 ^ 72)).length < _ ∧ (intContents (2 ^ 72)).length ≤ u32
        ((intContents (2 ^ 72)).length + length (encodeString (longSignature pad) ++ []))
      rw [hlast, hy]
      decide
    · change (longSignature pad).length < _ ∧ (longSignature pad).length ≤
        u32 ((longSignature pad).length + 0)
      rw [hsig]
      decide
  exact except_bind_eq_ok.mpr ⟨_, (StructType.unmarshal_encode_iff hadmits).mpr hfits, rfl⟩

end KexAlgorithm

open Handshake KexAlgorithm in
/-- A host key of 2^32 bytes and 19 more is cut short on the way, and the client takes the public
value from it. -/
theorem disagree_long_hostKey :
    ∃ (priv : Signer) (tc tc' ts ts' : Transport Unit) (rc rs : HostKexResult)
      (sent answered : Bytes),
      openEnv.prims.Lawful ∧
      client openEnv.prims ⟨1, 0, []⟩ smallMagics (.dhGroup 2 dhGroup14P) tc = (.ok rc, tc') ∧
      server openEnv.prims ⟨1, 0, []⟩ smallMagics priv (.dhGroup 2 dhGroup14P) ts = (.ok rs, ts') ∧
      tc'.outgoing = tc.outgoing ++ [sent] ∧ ts'.outgoing = ts.outgoing ++ [answered] ∧
      ts.incoming = .ok sent :: ts'.incoming ∧ tc.incoming = .ok answered :: tc'.incoming ∧
      rc.K ≠ rs.K ∧ rc.hostKey ≠ rs.hostKey := by
  have hpad : (replicate (2 ^ 32 - 18) (0 : UInt8)).length = 2 ^ 32 - 18 :=
    length_replicate
  generalize replicate (2 ^ 32 - 18) (0 : UInt8) = pad at hpad
  let kex : KexAlgorithm := .dhGroup 2 dhGroup14P
  let two : kex.Public := (2 : Int)
  let hostKey : Bytes := encodeString (ascii "ssh-ed25519") ++ encodeString (longKey pad)
  let sig : Bytes := encodeString [] ++ encodeString []
  have hown : kex.ownPublic openEnv.prims ⟨1, 0, []⟩ = two := by
    have h : 2 ^ 1 % dhGroup14P = 2 := by decide +kernel
    exact congrArg Int.ofNat h
  have hsecret : kex.secret openEnv.prims ⟨1, 0, []⟩ two = .ok 2 := by
    have h := diffieHellman_of_lt (n := 2) (p := dhGroup14P) (a := 1) (by decide)
      (by decide +kernel)
    exact h.trans (congrArg Except.ok (by decide +kernel))
  have hsecret' : kex.secret openEnv.prims ⟨1, 0, []⟩ ((2 : Int) ^ 72) = .ok (2 ^ 72) := by
    have h := diffieHellman_of_lt (n := 2 ^ 72) (p := dhGroup14P) (a := 1) (by decide)
      (by decide +kernel)
    exact h.trans (congrArg Except.ok (by decide +kernel))
  have hinit : kex.parseInit (kex.initPacket two) = .ok two :=
    parseInit_initPacket (by decide +kernel)
  have hreply : kex.parseReply (kex.replyPacket hostKey sig two) =
      .ok (shortHostKey, (2 : Int) ^ 72, longSignature pad) := by
    rw [show kex.replyPacket hostKey sig two = _ from replyPacket_long hpad]
    exact parseReply_long hpad
  have hkey : (longSigner pad).publicKey.marshal openEnv.prims.elliptic = some hostKey :=
    RawKey.marshal_eq _ _
  have hanswer : ∃ rs, kex.answer openEnv.prims ⟨1, 0, []⟩ smallMagics (longSigner pad)
      (kex.initPacket (kex.ownPublic openEnv.prims ⟨1, 0, []⟩)) =
        .ok (kex.replyPacket hostKey sig two, rs) ∧
      rs.K = encodeString (intContents 2) ∧ rs.hostKey = hostKey := by
    rw [hown]
    refine ⟨_, answer_eq_ok.mpr ⟨two, 2, hostKey, sig, hinit, hsecret, hkey, rfl, ?_, rfl⟩, rfl,
      rfl⟩
    rw [hown]
  have hconclude : ∃ rc, kex.conclude openEnv.prims ⟨1, 0, []⟩ smallMagics
      (kex.replyPacket hostKey sig two) = .ok rc ∧
      rc.K = encodeString (intContents (2 ^ 72)) ∧ rc.hostKey = shortHostKey :=
    ⟨_, conclude_eq_ok.mpr ⟨_, _, _, _, hreply, hsecret', rfl⟩, rfl, rfl⟩
  obtain ⟨rs, hanswer, hKs, hkeys⟩ := hanswer
  obtain ⟨rc, hconclude, hKc, hkeyc⟩ := hconclude
  obtain ⟨body, hbody⟩ := kex.replyPacket_cons hostKey sig two
  obtain ⟨tc, tc', ts, ts', hc, hs, hsent, hanswered, hin, hin'⟩ :=
    exists_run hanswer hconclude hbody
  refine ⟨longSigner pad, tc, tc', ts, ts', rc, rs, _, _, lawful_openEnv, hc, hs, hsent, hanswered,
    hin, hin', ?_, ?_⟩
  · rw [hKc, hKs]
    decide +kernel
  rw [hkeyc, hkeys]
  intro h
  have hlen := congrArg length h
  have hshort : shortHostKey.length = 19 := by decide +kernel
  rw [hshort, length_append, length_encodeString, length_encodeString,
    length_longKey hpad] at hlen
  omega

open Handshake KexAlgorithm in
theorem agree_of_delivered_small :
    ∃ init reply rc rs tc' ts', smallClient reply = (.ok rc, tc') ∧
      smallServer init = (.ok rs, ts') ∧
      tc'.outgoing = [init] ∧ ts'.outgoing = [reply] ∧
      rc.K = rs.K ∧ rc.H = rs.H ∧ rc.hostKey = rs.hostKey := by
  let init : Bytes := initPacket (.dhGroup 5 23) (8 : Int)
  let reply : Bytes := (smallServer init).2.outgoing.headD []
  have hc : (smallClient reply).1.test (fun _ => true) = true := by decide +kernel
  have hs : (smallServer init).1.test (fun _ => true) = true := by decide +kernel
  obtain ⟨rc, tc', hrc, -⟩ := exists_of_test (x := client openEnv.prims ⟨6, 0, []⟩ smallMagics
    (.dhGroup 5 23)) hc
  obtain ⟨rs, ts', hrs, -⟩ := exists_of_test (x := server openEnv.prims ⟨15, 0, []⟩ smallMagics
    ed25519Signer (.dhGroup 5 23)) hs
  have hsent : (smallClient reply).2.outgoing = [init] := by decide +kernel
  have hanswered : (smallServer init).2.outgoing = [reply] := by decide +kernel
  have hleft : (smallClient reply).2.incoming.length = 0 := by decide +kernel
  have hleft' : (smallServer init).2.incoming.length = 0 := by decide +kernel
  have hl : ∀ packet ∈ [init] ++ [reply], packet.length < 2 ^ 32 := by decide +kernel
  have hrc' : smallClient reply = (.ok rc, tc') := hrc
  have hrs' : smallServer init = (.ok rs, ts') := hrs
  rw [hrc'] at hsent hleft
  rw [hrs'] at hanswered hleft'
  refine ⟨init, reply, rc, rs, tc', ts', hrc, hrs, hsent, hanswered, ?_⟩
  refine KexAlgorithm.agree_of_delivered openEnv.prims lawful_openEnv
    (.dhGroup 5 23) smallMagics _ _
    _ _ _ _ _ rc rs hrc hrs [init] [reply] hsent hanswered ?_ ?_ hl
  · rw [length_eq_zero_iff.mp hleft']
    rfl
  · rw [length_eq_zero_iff.mp hleft]
    rfl

end XCryptoSsh
