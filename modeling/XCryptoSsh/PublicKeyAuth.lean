import XCryptoSsh.AuthCache
import XCryptoSsh.SignedData

namespace XCryptoSsh
open Go Call
open List (length_cons length_append length_nil)
set_option autoImplicit true

theorem isAcceptableAlgo_type (key : PublicKey) :
    isAcceptableAlgo (ascii key.type) = true ↔ key.type ≠ KeyAlgo.ed25519.certName := by
  have raw (a : KeyAlgo) : isAcceptableAlgo (ascii a.name) = true ∧
      a.name ≠ KeyAlgo.ed25519.certName := by
    cases a <;> decide +kernel
  have cert (a : KeyAlgo) : isAcceptableAlgo (ascii a.certName) = true ↔
      a.certName ≠ KeyAlgo.ed25519.certName := by
    cases a <;> decide +kernel
  cases key with
  | raw key => exact ⟨fun _ => (raw key.algo).2, fun _ => (raw key.algo).1⟩
  | cert c k => exact cert c.key.algo

theorem isAcceptableAlgo_of_verify {key : PublicKey} (h : key.verify V data sig = .ok ()) :
    isAcceptableAlgo sig.format = true := by
  have raw {k : RawKey} (h : k.verify V data sig = .ok ()) : sig.format = ascii k.algo.name := by
    by_contra hne
    unfold RawKey.verify at h
    rw [if_pos hne] at h
    cases h
  have hf : ∃ a : KeyAlgo, sig.format = ascii a.name := by
    cases key with
    | raw k => exact ⟨_, raw h⟩
    | cert c k => exact ⟨_, raw (k := c.key) h⟩
  obtain ⟨a, ha⟩ := hf
  rw [ha]
  cases a <;> decide +kernel

def ackPacket (algo blob : Bytes) : Bytes := userAuthPubKeyOkMsg.encode (algo, blob, ())

def publickeyRequest (user payload : Bytes) : UserAuthRequest :=
  ⟨user, serviceSSH, ascii "publickey", payload⟩

def requestPacket (user payload : Bytes) : Bytes :=
  userAuthRequestMsg.encode (user, serviceSSH, ascii "publickey", payload, ())

theorem length_requestPacket (user payload : Bytes) :
    (requestPacket user payload).length = user.length + payload.length + 36 := by
  have hservice : serviceSSH.length = 14 := by decide
  have hmethod : (ascii "publickey").length = 9 := by decide
  change (50 :: (encodeString user ++ (encodeString serviceSSH ++
    (encodeString (ascii "publickey") ++ (payload ++ []))))).length = _
  simp only [length_cons, length_append, length_encodeString, hservice, hmethod,
    length_nil]
  omega

theorem length_payload_le (user payload : Bytes) :
    payload.length ≤ (requestPacket user payload).length := by
  rw [length_requestPacket]
  omega

theorem unmarshal_requestPacket (hl : (requestPacket user payload).length < 2 ^ 32) :
    unmarshal userAuthRequestMsg (requestPacket user payload) =
      .ok (user, serviceSSH, ascii "publickey", payload, ()) :=
  unmarshal_encode_of_length_lt (t := userAuthRequestMsg) rfl (by decide)
    (by simp [userAuthRequestMsg]) hl

def queryPayload (algo blob : Bytes) : Bytes :=
    0 :: (encodeString algo ++ (encodeString blob ++ []))

theorem queryPacket_eq (user algo blob : Bytes) :
    queryPacket user algo blob = some (requestPacket user (queryPayload algo blob)) := by
  refine (StructType.marshal_eq publickeyAuthMsg _).trans (congrArg some ?_)
  exact encode_publickeyAuthMsg user serviceSSH (ascii "publickey") algo blob [] false

namespace AuthState

variable {ω : Type} {env : AuthEnv ω} {req : UserAuthRequest} {s s' : AuthState ω}
variable {user blob algo payload : Bytes}

def TriesLeft (env : AuthEnv ω) (s : AuthState ω) : Prop :=
  ¬ (s.authFailures ≥ env.config.maxAuthTries ∧ env.config.maxAuthTries > 0)

theorem authRound_request (ht : s.TriesLeft env)
    (hin : s.conn.incoming = .ok (requestPacket user payload) :: incoming)
    (hl : (requestPacket user payload).length < 2 ^ 32) :
    authRound env s = (authPublicKey env (publickeyRequest user payload) >>=
      settle env (publickeyRequest user payload))
      (s.begun (publickeyRequest user payload) incoming) := by
  have h₁ : checkTries env s = (.ok (), s) := by
    have hget : AuthState.get AuthState.authFailures s = (.ok s.authFailures, s) := rfl
    rw [checkTries, bind_of_ok hget, if_neg ht]
    rfl
  have h₂ : readRequest s = (.ok (publickeyRequest user payload),
      { s with conn.incoming := incoming }) := by
    have hread : (AuthState.read : Call Err (AuthState ω) Bytes) s =
        (.ok (requestPacket user payload), { s with conn.incoming := incoming }) := by
      rw [AuthState.read, hin]
      rfl
    rw [readRequest, hread]
    dsimp only
    rw [unmarshal_requestPacket hl]
    rfl
  have hserv : ¬ (publickeyRequest user payload).service ≠ serviceSSH := fun h => h rfl
  rw [authRound, bind_of_ok h₁, bind_of_ok h₂, bind_of_ok (b := ()) (failIf_eq_ok.mpr ⟨hserv, rfl⟩),
    authMethod_publickey rfl]
  rfl

def Accepts (user blob : Bytes) (c : CachedPubKey) : Prop :=
  c.user = user → c.pubKeyData = blob → c.result = none ∧ c.perms = none

theorem judges_accepts (hcb : env.config.publicKeyCallback = some callback)
    (haccept : ∀ key, parsePublicKey env.elliptic blob = .ok key →
      ∀ c, ∃ c', callback c user key = (none, none, c')) :
    Judges env (Accepts user blob) := by
  intro callback' hcb' c user' blob' key hkey
  cases hcb.symm.trans hcb'
  rintro rfl rfl
  obtain ⟨c', h⟩ := haccept key hkey c
  dsimp only at h ⊢
  rw [h]
  exact ⟨rfl, rfl⟩

theorem lookupPublicKey_accepts
    (haccept : ∀ key, parsePublicKey env.elliptic blob = .ok key →
      ∀ c, ∃ c', callback c s.user key = (none, none, c'))
    (hkey : parsePublicKey env.elliptic blob = .ok key) (hs : s.Caches (Accepts s.user blob)) :
    ∃ candidate s', lookupPublicKey env callback blob key s = (.ok candidate, s') ∧
      candidate.result = none ∧ candidate.perms = none ∧ s'.conn = s.conn ∧
      s'.authFailures = s.authFailures := by
  unfold lookupPublicKey
  cases hget : pubKeyCacheGet s.cache s.user blob with
  | some c =>
    have hfound := List.find?_some hget
    rw [Bool.and_eq_true, beq_iff_eq, beq_iff_eq] at hfound
    obtain ⟨hr, hp⟩ := hs c (List.mem_of_find?_eq_some hget) hfound.1 hfound.2
    exact ⟨c, s, rfl, hr, hp, rfl, rfl⟩
  | none =>
    obtain ⟨c', h⟩ := haccept key hkey s.env
    refine ⟨_, _, rfl, ?_, ?_, rfl, rfl⟩
    · simp only [h]
      rfl
    · simp only [h]

theorem writeMsg_of_marshal (hw : ∀ n, s.conn.writeError n = none) (t : StructType)
    (m : Vals t.fields) :
    writeMsg (marshal t m) s =
      (.ok (), { s with conn.outgoing := s.conn.outgoing ++ [t.encode m] }) := by
  rw [writeMsg, StructType.marshal_eq, bind_of_ok (inRange_eq_ok.mpr ⟨rfl, rfl⟩), AuthState.write,
    hw]

theorem authPublicKey_unacceptable (req : UserAuthRequest)
    (hcb : env.config.publicKeyCallback = some callback)
    (hp : req.payload = flag :: (encodeString algo ++ tail))
    (hl : req.payload.length < 2 ^ 32) (ha : isAcceptableAlgo algo = false) :
    ∃ e, authPublicKey env req s = (.ok (.judged (some e) none), s) := by
  have hl := hl
  rw [hp, length_cons, length_append, length_encodeString] at hl
  have h₁ : parseString (encodeString algo ++ tail) = some (algo, tail) :=
    parseString_of_fits (stringFits_of_length_lt (by omega))
  unfold authPublicKey
  rw [hcb, hp]
  dsimp only [List.head?_cons, List.tail_cons]
  rw [bind_of_ok (orFail_eq_ok.mpr ⟨rfl, rfl⟩), bind_of_ok (orFail_eq_ok.mpr ⟨h₁, rfl⟩),
    if_neg (by rw [ha]; decide)]
  exact ⟨_, rfl⟩

theorem authQuery_accepts (algo blob : Bytes) (hr : candidate.result = none)
    (hw : ∀ n, s.conn.writeError n = none) :
    authQuery algo blob [] candidate s = (.ok .query,
      { s with conn.outgoing := s.conn.outgoing ++ [ackPacket algo blob] }) := by
  rw [authQuery, bind_of_ok (b := ()) (failIf_eq_ok.mpr ⟨by simp, rfl⟩), hr]
  dsimp only
  rw [bind_of_ok (writeMsg_of_marshal hw userAuthPubKeyOkMsg (algo, blob, ()))]
  rfl

theorem authSigned_accepts (req : UserAuthRequest) (candidate : CachedPubKey)
    (hl : (encodeString (encodeSig sig)).length < 2 ^ 32)
    (hdata : buildDataSignedForAuth env.sessionID req algo blob = some data)
    (hv : key.verify env.verifiers data sig = .ok ()) :
    authSigned env req algo blob (encodeString (encodeSig sig)) key candidate s =
      (.ok (.judged candidate.result candidate.perms), s) := by
  rw [authSigned_eq req candidate hl hdata (isAcceptableAlgo_of_verify hv),
    bind_of_ok (ofResult_eq_ok.mpr ⟨hv, rfl⟩)]
  rfl

theorem settle_refuses (req : UserAuthRequest) (perms : Option Permissions)
    (hm : failureMethods env.config ≠ []) (hw : ∀ n, s.conn.writeError n = none) :
    ∃ s', settle env req (.judged (some e) perms) s = (.ok none, s') ∧ s'.conn.outgoing =
      s.conn.outgoing ++ [userAuthFailureMsg.encode (failureMethods env.config, false, ())] := by
  have hlen : ¬ (failureMethods env.config).length = 0 := fun h => hm (List.length_eq_zero_iff.mp h)
  have hlog : ∃ s₁, logAttempt env req (some e) s = (.ok (), s₁) ∧ s₁.conn = s.conn := ⟨_, rfl, rfl⟩
  obtain ⟨s₁, h₁, hc₁⟩ := hlog
  have hcount : ∃ s₂, AuthState.modify (fun s => { s with authFailures := s.authFailures + 1 }) s₁ =
      (.ok (), s₂) ∧ s₂.conn = s.conn := ⟨_, rfl, hc₁⟩
  obtain ⟨s₂, h₂, hc₂⟩ := hcount
  have h₃ := writeMsg_of_marshal (s := s₂) (by rwa [hc₂]) userAuthFailureMsg
    (failureMethods env.config, false, ())
  have hrefuse : refuse env s₁ = _ :=
    (bind_of_ok h₂).trans ((bind_of_ok (b := ()) (failIf_eq_ok.mpr ⟨hlen, rfl⟩)).trans h₃)
  refine ⟨_, (bind_of_ok h₁).trans (bind_of_ok hrefuse), ?_⟩
  rw [hc₂]

/-- The server has come to this state by rounds that let nobody in. -/
inductive Serving (env : AuthEnv ω) (conn : PacketConn) (c : ω) : AuthState ω → Prop where
  | new : Serving env conn c (.new conn c)
  | round {s s' : AuthState ω} : Serving env conn c s → authRound env s = (.ok none, s') →
      Serving env conn c s'

theorem Serving.caches (hP : Judges env P) (h : Serving env conn₀ c s) : s.Caches P := by
  induction h with
  | new => exact nofun
  | round _ hround ih => exact (authRound_caches hP ih hround).1

theorem userAuthLoop_of_le (h : s.conn.incoming.length < n) (hle : n ≤ k) :
    userAuthLoop env n s = userAuthLoop env k s := by
  induction k, hle using Nat.le_induction with
  | base => rfl
  | succ k hle ih => rw [ih, userAuthLoop_of_lt (by omega)]

theorem serverAuthenticate_round (h : authRound env s = (.ok none, s')) :
    serverAuthenticate env s = serverAuthenticate env s' := by
  have hlt := length_incoming_of_authRound h
  have hloop : userAuthLoop env (s.conn.incoming.length + 1) s =
      userAuthLoop env (s'.conn.incoming.length + 1) s' := by
    rw [userAuthLoop_of_le (s := s') (Nat.lt_succ_self _) hlt]
    exact bind_of_ok h
  unfold serverAuthenticate
  change Call.bind _ _ s = Call.bind _ _ s'
  simp only [Call.bind, hloop]

theorem serverAuthenticate_granted (h : authRound env s = (.ok (some perms), s'))
    (hw : ∀ n, s'.conn.writeError n = none) :
    ∃ s'', serverAuthenticate env s = (.ok perms, s'') ∧
      s''.conn.outgoing = s'.conn.outgoing ++ [[msgUserAuthSuccess]] := by
  have hloop : userAuthLoop env (s.conn.incoming.length + 1) s = (.ok perms, s') := bind_of_ok h
  have hwrite : AuthState.write [msgUserAuthSuccess] s' = (.ok (), { s' with
      conn := { s'.conn with outgoing := s'.conn.outgoing ++ [[msgUserAuthSuccess]] } }) := by
    rw [AuthState.write, hw]
  exact ⟨_, (bind_of_ok hloop).trans (bind_of_ok hwrite), rfl⟩

theorem Serving.serverAuthenticate_eq (h : Serving env conn₀ c s) :
    serverAuthenticate env (.new conn₀ c) = serverAuthenticate env s := by
  induction h with
  | new => rfl
  | round _ hround ih => rw [ih, serverAuthenticate_round hround]

variable {callback : ω → (user : Bytes) → PublicKey → Option Permissions × Option Err × ω}
variable {incoming : List (Except Err Bytes)}

section Login

variable {key : PublicKey} {sig : Signature} {data : Bytes}
variable (hcb : env.config.publicKeyCallback = some callback)
variable (haccept : ∀ key, parsePublicKey env.elliptic blob = .ok key →
  ∀ c, ∃ c', callback c user key = (none, none, c'))
variable (hkey : parsePublicKey env.elliptic blob = .ok key) (ha : isAcceptableAlgo algo = true)
variable (hs : s.Caches (Accepts user blob)) (ht : s.TriesLeft env)

include hcb haccept hkey ha hs ht

theorem authRound_query (hw : ∀ n, s.conn.writeError n = none)
    (hin : s.conn.incoming = .ok (requestPacket user (queryPayload algo blob)) :: incoming)
    (hl : (requestPacket user (queryPayload algo blob)).length < 2 ^ 32) :
    ∃ s', authRound env s = (.ok none, s') ∧ s'.TriesLeft env ∧ s'.conn =
      { s.conn with
        incoming := incoming
        outgoing := s.conn.outgoing ++ [ackPacket algo blob] } := by
  rw [authRound_request ht hin hl]
  obtain ⟨candidate, s₁, hlook, hr, -, hconn, htries⟩ := lookupPublicKey_accepts
    (s := s.begun (publickeyRequest user (queryPayload algo blob)) incoming) haccept hkey hs
  have hquery := authQuery_accepts (s := s₁) algo blob hr (by rwa [hconn])
  have hpub := authPublicKey_payload
    (s := s.begun (publickeyRequest user (queryPayload algo blob)) incoming)
    (publickeyRequest user (queryPayload algo blob)) hcb rfl
    ((length_payload_le user _).trans_lt hl) ha
  rw [bind_of_ok (ofExcept_eq_ok.mpr ⟨hkey, rfl⟩), bind_of_ok hlook, if_pos rfl, hquery] at hpub
  refine ⟨_, bind_of_ok hpub, ?_, ?_⟩
  · rw [TriesLeft]
    dsimp only
    rw [htries]
    exact ht
  · rw [hconn]
    rfl

theorem authRound_signed (hin : s.conn.incoming =
      .ok (requestPacket user (signedPayload algo blob sig)) :: incoming)
    (hl : (requestPacket user (signedPayload algo blob sig)).length < 2 ^ 32)
    (hdata : buildDataSignedForAuth env.sessionID (publickeyRequest user []) algo blob = some data)
    (hv : key.verify env.verifiers data sig = .ok ()) :
    ∃ s', authRound env s = (.ok (some none), s') ∧
      s'.conn = { s.conn with incoming := incoming } := by
  rw [authRound_request ht hin hl]
  obtain ⟨candidate, s₁, hlook, hr, hp, hconn, -⟩ := lookupPublicKey_accepts
    (s := s.begun (publickeyRequest user (signedPayload algo blob sig)) incoming) haccept hkey hs
  have hlen := (length_payload_le user (signedPayload algo blob sig)).trans_lt hl
  have hsig : (encodeString (encodeSig sig)).length < 2 ^ 32 := by
    rw [signedPayload, length_cons, length_append, length_append] at hlen
    omega
  have hsigned := authSigned_accepts (s := s₁) (publickeyRequest user (signedPayload algo blob sig))
    candidate hsig hdata hv
  have hpub := authPublicKey_payload
    (s := s.begun (publickeyRequest user (signedPayload algo blob sig)) incoming)
    (publickeyRequest user (signedPayload algo blob sig)) hcb rfl hlen ha
  rw [bind_of_ok (ofExcept_eq_ok.mpr ⟨hkey, rfl⟩), bind_of_ok hlook, if_neg (by decide), hsigned,
    hr, hp] at hpub
  exact ⟨_, bind_of_ok hpub, hconn⟩

end Login

section Query

variable (hcb : env.config.publicKeyCallback = some callback) (ht : s.TriesLeft env)
variable (hw : ∀ n, s.conn.writeError n = none)
variable (hin : s.conn.incoming = .ok (requestPacket user (queryPayload algo blob)) :: incoming)
variable (hl : (requestPacket user (queryPayload algo blob)).length < 2 ^ 32)

include hcb ht hw hin hl

theorem authRound_refused (ha : isAcceptableAlgo algo = false) :
    ∃ s', authRound env s = (.ok none, s') ∧ s'.conn.outgoing =
      s.conn.outgoing ++ [userAuthFailureMsg.encode (failureMethods env.config, false, ())] := by
  rw [authRound_request ht hin hl]
  obtain ⟨e, hpub⟩ := authPublicKey_unacceptable
    (s := s.begun (publickeyRequest user (queryPayload algo blob)) incoming)
    (publickeyRequest user (queryPayload algo blob)) hcb rfl
    ((length_payload_le user _).trans_lt hl) ha
  have hm : failureMethods env.config ≠ [] := by simp [failureMethods, hcb]
  obtain ⟨s', hset, hout⟩ := settle_refuses
    (s := s.begun (publickeyRequest user (queryPayload algo blob)) incoming) (e := e)
    (publickeyRequest user (queryPayload algo blob)) none hm hw
  exact ⟨s', (bind_of_ok hpub).trans hset, hout⟩

theorem authRound_unanswered (h : authRound env s = (.ok none, s'))
    (hout : s'.conn.outgoing = s.conn.outgoing ++ [ackPacket algo blob]) :
    isAcceptableAlgo algo = true ∧ ∃ key, parsePublicKey env.elliptic blob = .ok key := by
  have hlen := (length_payload_le user (queryPayload algo blob)).trans_lt hl
  cases ha : isAcceptableAlgo algo with
  | false =>
    -- the answer is a failure
    obtain ⟨s₁, hround, hout₁⟩ := authRound_refused hcb ht hw hin hl ha
    cases h.symm.trans hround
    rw [hout₁] at hout
    cases List.append_cancel_left hout
  | true =>
    refine ⟨rfl, ?_⟩
    rw [authRound_request ht hin hl] at h
    obtain ⟨o, s₁, hpub, -⟩ := bind_eq_ok.mp h
    rw [authPublicKey_payload _ hcb rfl hlen ha] at hpub
    obtain ⟨key, s₂, hkey, -⟩ := bind_eq_ok.mp hpub
    exact ⟨key, (ofExcept_eq_ok.mp hkey).1⟩

end Query

end AuthState

theorem confirmKeyAck_ack (hl : (ackPacket algo blob).length < 2 ^ 32)
    (incoming : List (Except Err Bytes)) (outgoing : List Bytes) (w : Nat → Option Err) :
    confirmKeyAck algo blob ⟨.ok (ackPacket algo blob) :: incoming, outgoing, w⟩ =
      (.ok true, ⟨incoming, outgoing, w⟩) := by
  have hm : unmarshal userAuthPubKeyOkMsg (ackPacket algo blob) = .ok (algo, blob, ()) :=
    unmarshal_encode_of_length_lt (t := userAuthPubKeyOkMsg) rfl (by decide)
      (by simp [userAuthPubKeyOkMsg]) hl
  have hread : PacketConn.readPacket ⟨.ok (ackPacket algo blob) :: incoming, outgoing, w⟩ =
      (.ok (ackPacket algo blob), ⟨incoming, outgoing, w⟩) := rfl
  have htag : (ackPacket algo blob).head? = some msgUserAuthPubKeyOk := rfl
  rw [confirmKeyAck, confirmKeyAckLoop, bind_of_ok hread,
    bind_of_ok (inRange_eq_ok.mpr ⟨htag, rfl⟩),
    if_neg (by decide), if_pos rfl, bind_of_ok (ofExcept_eq_ok.mpr ⟨hm, rfl⟩)]
  simp only [and_self, decide_true]
  rfl

theorem length_ackPacket_lt (h : (requestPacket user (queryPayload algo blob)).length < 2 ^ 32) :
    (ackPacket algo blob).length < 2 ^ 32 := by
  have hlen := length_payload_le user (queryPayload algo blob)
  have hack : (ackPacket algo blob).length = (queryPayload algo blob).length := rfl
  omega

theorem publicKeyAuth_answered {signer : Signer} (others : List Signer) (methods : List Bytes)
    (hblob : signer.publicKey.marshal E = some blob)
    (hr : signedPacket signer.sign session user (ascii signer.publicKey.type) blob = .ok r)
    (hl : (ackPacket (ascii signer.publicKey.type) blob).length < 2 ^ 32)
    (incoming : List (Except Err Bytes)) (outgoing : List Bytes) :
    publicKeyAuth E session user methods (signer :: others)
      ⟨.ok (ackPacket (ascii signer.publicKey.type) blob) :: .ok [msgUserAuthSuccess] :: incoming,
        outgoing, fun _ => none⟩ =
      (.ok (true, []), ⟨incoming, outgoing ++
        [requestPacket user (queryPayload (ascii signer.publicKey.type) blob)] ++ [r],
        fun _ => none⟩) := by
  have hv : validateKey E user signer.publicKey
      ⟨.ok (ackPacket (ascii signer.publicKey.type) blob) :: .ok [msgUserAuthSuccess] :: incoming,
        outgoing, fun _ => none⟩ = (.ok true, ⟨.ok [msgUserAuthSuccess] :: incoming, outgoing ++
        [requestPacket user (queryPayload (ascii signer.publicKey.type) blob)], fun _ =>
          none⟩) := by
    rw [validateKey, bind_of_ok (inRange_eq_ok.mpr ⟨hblob, rfl⟩),
      bind_of_ok (inRange_eq_ok.mpr ⟨queryPacket_eq _ _ _, rfl⟩)]
    exact confirmKeyAck_ack hl _ _ _
  rw [publicKeyAuth, bind_of_ok hv, if_pos rfl, bind_of_ok (inRange_eq_ok.mpr ⟨hblob, rfl⟩),
    bind_of_ok (ofResult_eq_ok.mpr ⟨hr, rfl⟩)]
  rfl

open AuthState in
/-- A client whose key the callback takes, and whose signatures verify, is logged in unless its key
is an Ed25519 certificate or one that `ParsePublicKey` does not read. -/
theorem publicKeyAuth_complete_iff {ω : Type} (env : AuthEnv ω)
    (callback : ω → (user : Bytes) → PublicKey → Option Permissions × Option Err × ω)
    (hcb : env.config.publicKeyCallback = some callback) (signer : Signer) (user blob q r : Bytes)
    (hblob : signer.publicKey.marshal env.elliptic = some blob)
    (hq : queryPacket user (ascii signer.publicKey.type) blob = some q)
    (hr : signedPacket signer.sign env.sessionID user (ascii signer.publicKey.type) blob = .ok r)
    (hl : r.length < 2 ^ 32)
    (haccept : ∀ key, parsePublicKey env.elliptic blob = .ok key →
      ∀ c, ∃ c', callback c user key = (none, none, c'))
    (hverify : ∀ key, parsePublicKey env.elliptic blob = .ok key →
      ∀ data sig, signer.sign data = .ok sig → key.verify env.verifiers data sig = .ok ())
    (conn : PacketConn) (c : ω) (s : AuthState ω) (incoming : List (Except Err Bytes))
    (hs : Serving env conn c s) (hin : s.conn.incoming = .ok q :: .ok r :: incoming)
    (ht : s.TriesLeft env) (hw : ∀ n, s.conn.writeError n = none)
    (others : List Signer) (methods : List Bytes) :
    (∃ ack s₁ s₂ s₃, marshal userAuthPubKeyOkMsg (ascii signer.publicKey.type, blob, ()) =
      some ack ∧
      authRound env s = (.ok none, s₁) ∧ s₁.conn.outgoing = s.conn.outgoing ++ [ack] ∧
      authRound env s₁ = (.ok (some none), s₂) ∧
      serverAuthenticate env (.new conn c) = (.ok none, s₃) ∧
      s₃.conn.outgoing = s.conn.outgoing ++ [ack, [msgUserAuthSuccess]] ∧
      publicKeyAuth env.elliptic env.sessionID user methods (signer :: others)
        ⟨[.ok ack, .ok [msgUserAuthSuccess]], [], fun _ => none⟩ =
        (.ok (true, []), ⟨[], [q, r], fun _ => none⟩)) ↔
    (∃ key, parsePublicKey env.elliptic blob = .ok key) ∧
      signer.publicKey.type ≠ KeyAlgo.ed25519.certName := by
  have hmarshal : marshal userAuthPubKeyOkMsg (ascii signer.publicKey.type, blob, ()) =
      some (ackPacket (ascii signer.publicKey.type) blob) := StructType.marshal_eq _ _
  rw [queryPacket_eq] at hq
  cases hq
  obtain ⟨data, sig, hdata, hsign, hpacket⟩ := signedPacket_eq_ok hr
  have hlq : (requestPacket user (queryPayload (ascii signer.publicKey.type) blob)).length <
      2 ^ 32 := by
    have hr : r.length = (requestPacket user
        (signedPayload (ascii signer.publicKey.type) blob sig)).length := congrArg _ hpacket
    simp only [length_requestPacket, queryPayload, signedPayload, length_cons,
      length_append, length_nil] at hr ⊢
    omega
  constructor
  · rintro ⟨ack, s₁, s₂, s₃, hack, hround, hout, -⟩
    cases hmarshal.symm.trans hack
    obtain ⟨ha, hkey⟩ := authRound_unanswered hcb ht hw hin hlq hround hout
    exact ⟨hkey, (isAcceptableAlgo_type _).mp ha⟩
  · rintro ⟨⟨key, hkey⟩, htype⟩
    have ha := (isAcceptableAlgo_type signer.publicKey).mpr htype
    have hP : Judges env (Accepts user blob) := judges_accepts hcb haccept
    have hc := hs.caches hP
    obtain ⟨s₁, hround₁, ht₁, hconn₁⟩ := authRound_query hcb haccept hkey ha hc ht hw hin hlq
    have hc₁ := (authRound_caches hP hc hround₁).1
    have hin₁ : s₁.conn.incoming = .ok (requestPacket user
        (signedPayload (ascii signer.publicKey.type) blob sig)) :: incoming := by
      rw [hconn₁, hpacket]
      rfl
    obtain ⟨s₂, hround₂, hconn₂⟩ := authRound_signed hcb haccept hkey ha hc₁ ht₁ hin₁
      (by rw [hpacket] at hl; exact hl) hdata (hverify key hkey data sig hsign)
    obtain ⟨s₃, hserver, hout⟩ := serverAuthenticate_granted hround₂
      (by rw [hconn₂, hconn₁]; exact hw)
    refine ⟨_, s₁, s₂, s₃, hmarshal, hround₁, ?_, hround₂, ?_, ?_, ?_⟩
    · rw [hconn₁]
    · rw [hs.serverAuthenticate_eq, serverAuthenticate_round hround₁, hserver]
    · rw [hout, hconn₂, hconn₁]
      exact List.append_assoc _ _ _
    · exact publicKeyAuth_answered others methods hblob hr (length_ackPacket_lt hlq) [] []

namespace ServerAuth

def loginEnv : AuthEnv Nat :=
  { rootEnv with config.publicKeyCallback := some fun n _ _ => (none, none, n + 1) }

def rawSigner : Signer := ⟨.raw (.ed25519 (List.replicate 32 7)), rootSign⟩

def certSigner : Signer :=
  ⟨.cert (PublicKey.certWithNonce [1, 2, 3]) (.raw (.rsa 3 15)), rootSign⟩

theorem rootSign_verifies {key : PublicKey}
    (hkey : key = rawSigner.publicKey ∨ key = certSigner.publicKey) (h : rootSign data = .ok sig) :
    key.verify loginEnv.verifiers data sig = .ok () := by
  have hraw : (RawKey.ed25519 (List.replicate 32 7)).verify loginEnv.verifiers data sig =
      .ok () := by
    cases h
    have hdata : (data == data) = true := beq_self_eq_true data
    unfold RawKey.verify
    rw [if_neg (by simp [RawKey.algo, KeyAlgo.name])]
    dsimp only
    rw [if_neg (by simp)]
    change verified (data == data) = _
    rw [hdata]
    rfl
  obtain rfl | rfl := hkey
  · exact hraw
  · exact hraw

theorem triesLeft_new (conn : PacketConn) : (AuthState.new conn 0).TriesLeft loginEnv :=
  fun h => absurd h.1 (by decide : ¬ (0 : Int) ≥ 6)

theorem length_certSigner : (certSigner.publicKey.encode loginEnv.elliptic).length < 2 ^ 16 := by
  simp only [certSigner, PublicKey.encode, Certificate.encodeGeneric, Certificate.generic,
    PublicKey.certWithNonce, PublicKey.encodeTuples_singleton]
  decide +kernel

end ServerAuth

open ServerAuth in
/-- The server answers the query for an Ed25519 certificate with a failure, whatever its callback
says. -/
theorem publicKeyAuth_certificate_refused :
    ∃ blob q s', certSigner.publicKey.marshal loginEnv.elliptic = some blob ∧
      parsePublicKey loginEnv.elliptic blob = .ok certSigner.publicKey ∧
      (∀ data sig, certSigner.sign data = .ok sig →
        certSigner.publicKey.verify loginEnv.verifiers data sig = .ok ()) ∧
      queryPacket (ascii "root") (ascii certSigner.publicKey.type) blob = some q ∧
      authRound loginEnv (.new ⟨[.ok q], [], fun _ => none⟩ 0) = (.ok none, s') ∧
      s'.conn.outgoing = [userAuthFailureMsg.encode ([ascii "publickey"], false, ())] ∧
      publicKeyAuth loginEnv.elliptic loginEnv.sessionID (ascii "root") [] [certSigner]
        ⟨s'.conn.outgoing.map .ok, [], fun _ => none⟩ =
          (.ok (false, []), ⟨[], [q], fun _ => none⟩) := by
  have hlen := length_certSigner
  have hmarshal : certSigner.publicKey.marshal loginEnv.elliptic =
      some (certSigner.publicKey.encode loginEnv.elliptic) :=
    PublicKey.marshal_eq (hlen.trans (by decide))
  have hparse : parsePublicKey loginEnv.elliptic (certSigner.publicKey.encode loginEnv.elliptic) =
      .ok certSigner.publicKey :=
    PublicKey.parsePublicKey_encode (PublicKey.valid_certWithNonce [1, 2, 3])
      (hlen.trans (by decide))
  generalize certSigner.publicKey.encode loginEnv.elliptic = blob at hlen hmarshal hparse
  have halgo : isAcceptableAlgo (ascii certSigner.publicKey.type) = false := by decide +kernel
  have htype : (ascii certSigner.publicKey.type).length = 32 := by decide +kernel
  have hl : (requestPacket (ascii "root")
      (queryPayload (ascii certSigner.publicKey.type) blob)).length < 2 ^ 32 := by
    have huser : (ascii "root").length = 4 := by decide
    simp only [length_requestPacket, queryPayload, length_cons, length_append,
      length_encodeString, length_nil, htype, huser]
    omega
  obtain ⟨s', hround, hout⟩ := AuthState.authRound_refused
    (s := .new ⟨[.ok (requestPacket (ascii "root")
      (queryPayload (ascii certSigner.publicKey.type) blob))], [], fun _ => none⟩ 0)
    (rfl : loginEnv.config.publicKeyCallback = _) (triesLeft_new _) (fun _ => rfl) rfl hl halgo
  refine ⟨blob, _, s', hmarshal, hparse, fun data sig h => rootSign_verifies (.inr rfl) h,
    queryPacket_eq _ _ _, hround, hout, ?_⟩
  rw [hout]
  have hv : validateKey loginEnv.elliptic (ascii "root") certSigner.publicKey
      ⟨[.ok (userAuthFailureMsg.encode ([ascii "publickey"], false, ()))], [], fun _ => none⟩ =
      (.ok false, ⟨[], [requestPacket (ascii "root")
        (queryPayload (ascii certSigner.publicKey.type) blob)], fun _ => none⟩) := by
    rw [validateKey, bind_of_ok (inRange_eq_ok.mpr ⟨hmarshal, rfl⟩),
      bind_of_ok (inRange_eq_ok.mpr ⟨queryPacket_eq _ _ _, rfl⟩)]
    rfl
  exact bind_of_ok hv

open ServerAuth in
theorem publicKeyAuth_complete_raw :
    ∃ r ack s, signedPacket rawSigner.sign loginEnv.sessionID (ascii "root") (ascii "ssh-ed25519")
        rootBlob = .ok r ∧
      serverAuthenticate loginEnv (.new ⟨[.ok (requestPacket (ascii "root")
        (queryPayload (ascii "ssh-ed25519") rootBlob)), .ok r], [], fun _ => none⟩ 0) =
        (.ok none, s) ∧
      s.conn.outgoing = [ack, [msgUserAuthSuccess]] ∧
      publicKeyAuth loginEnv.elliptic loginEnv.sessionID (ascii "root") [] [rawSigner]
        ⟨[.ok ack, .ok [msgUserAuthSuccess]], [], fun _ => none⟩ =
        (.ok (true, []), ⟨[], [requestPacket (ascii "root")
          (queryPayload (ascii "ssh-ed25519") rootBlob), r], fun _ => none⟩) := by
  have hkey : parsePublicKey loginEnv.elliptic rootBlob = .ok rawSigner.publicKey :=
    PublicKey.parsePublicKey_encode (k := rawSigner.publicKey) trivial (by decide +kernel)
  have hpacket : (signedPacket rawSigner.sign loginEnv.sessionID (ascii "root")
      (ascii "ssh-ed25519") rootBlob).test (fun p => decide (p.length < 2 ^ 32)) = true := by
    decide +kernel
  cases hr : signedPacket rawSigner.sign loginEnv.sessionID (ascii "root") (ascii "ssh-ed25519")
      rootBlob with
  | error e =>
    rw [hr] at hpacket
    cases hpacket
  | panic =>
    rw [hr] at hpacket
    cases hpacket
  | ok r =>
    rw [hr] at hpacket
    have h := publicKeyAuth_complete_iff loginEnv _ rfl rawSigner (ascii "root") rootBlob _ r
      (by decide +kernel) (queryPacket_eq _ _ _) hr (of_decide_eq_true hpacket)
      (fun _ _ n => ⟨n + 1, rfl⟩)
      (by
        intro key hk data sig hs
        cases hkey.symm.trans hk
        exact rootSign_verifies (.inl rfl) hs)
      ⟨[.ok (requestPacket (ascii "root") (queryPayload (ascii "ssh-ed25519") rootBlob)), .ok r],
        [],
        fun _ => none⟩ 0 _ [] .new rfl (triesLeft_new _) (fun _ => rfl) [] []
    obtain ⟨ack, s₁, s₂, s₃, -, -, -, -, hserver, hout, hclient⟩ := h.mpr ⟨⟨_, hkey⟩, by decide⟩
    exact ⟨r, ack, s₃, rfl, hserver, hout, hclient⟩

end XCryptoSsh
