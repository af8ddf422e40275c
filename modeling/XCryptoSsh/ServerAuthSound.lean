import XCryptoSsh.HostKey
import XCryptoSsh.ServerAuth

namespace XCryptoSsh
open Go Call List AuthState
set_option autoImplicit true

def AuthEvent.request? : AuthEvent → Option UserAuthRequest
  | .request req _ => some req
  | _ => none

def lastRequest (events : List AuthEvent) : Option UserAuthRequest :=
  (events.filterMap AuthEvent.request?).getLast?

/-- The event is what a callback of the configuration returned when it was called for this user. -/
def AuthEvent.Genuine (env : AuthEnv ω) : AuthEvent → Prop
  | .request .. => True
  | .password user pass perms err =>
    ∃ callback c c', env.config.passwordCallback = some callback ∧
      callback c user pass = (perms, err, c')
  | .keyboardInteractive user perms err =>
    ∃ callback s s', env.config.keyboardInteractiveCallback = some callback ∧ s.user = user ∧
      (callback s.env user).run s = (.ok (perms, err), s')
  | .publicKey user pubKeyData key perms err =>
    parsePublicKey env.elliptic pubKeyData = .ok key ∧
      ∃ callback c c', env.config.publicKeyCallback = some callback ∧
        callback c user key = (perms, err, c')

/-- The request gives its sender these permissions, by the events of the run. -/
inductive Granted (env : AuthEnv ω) (req : UserAuthRequest) (events : List AuthEvent) :
    Option Permissions → Prop where
  | none : req.method = ascii "none" → env.config.noClientAuth = true → Granted env req events none
  | password {password : Bytes} : req.method = ascii "password" →
      parsePassword req.payload = .ok password →
      events.getLast? = some (.password req.user password perms none) →
      Granted env req events perms
  | keyboardInteractive : req.method = ascii "keyboard-interactive" →
      events.getLast? = some (.keyboardInteractive req.user perms none) →
      Granted env req events perms
  | publicKey : req.method = ascii "publickey" →
      req.payload = flag :: payload → flag ≠ 0 →
      parseString payload = some (algo, payload') →
      parseString payload' = some (pubKeyData, payload'') →
      parseSignature payload'' = some (sig, []) →
      parsePublicKey env.elliptic pubKeyData = .ok key →
      buildDataSignedForAuth env.sessionID req algo pubKeyData = some signedData →
      key.verify env.verifiers signedData sig = .ok () →
      .publicKey req.user pubKeyData key perms none ∈ events →
      Granted env req events perms

def isFailure (packet : Bytes) : Bool := packet.head? == some 51

structure AuthState.Sound (env : AuthEnv ω) (s : AuthState ω) : Prop where
  genuine : ∀ e ∈ s.events, e.Genuine env
  cached : ∀ c ∈ s.cache, c.result = none →
    ∃ key, .publicKey c.user c.pubKeyData key c.perms none ∈ s.events

namespace AuthState

variable {ω : Type} {env : AuthEnv ω} {req : UserAuthRequest} {s s' : AuthState ω}

structure Frame (s s' : AuthState ω) : Prop where
  user : s'.user = s.user
  cache : s'.cache = s.cache
  events : s'.events = s.events
  reads : ∃ read, s.conn.incoming = read ++ s'.conn.incoming

structure Advances (s s' : AuthState ω) : Prop where
  user : s'.user = s.user
  events : ∃ evs, s'.events = s.events ++ evs ∧ ∀ e ∈ evs, e.request? = none
  reads : ∃ read, s.conn.incoming = read ++ s'.conn.incoming

instance : IsPreorder (AuthState ω) Frame where
  refl _ := ⟨rfl, rfl, rfl, [], rfl⟩
  trans _ _ _ h h' := by
    obtain ⟨read, hr⟩ := h.reads
    obtain ⟨read', hr'⟩ := h'.reads
    refine ⟨h'.user.trans h.user, h'.cache.trans h.cache, h'.events.trans h.events, read ++ read',
      ?_⟩
    rw [hr, hr', append_assoc]

instance : IsPreorder (AuthState ω) Advances where
  refl _ := ⟨rfl, ⟨[], (append_nil _).symm, nofun⟩, [], rfl⟩
  trans _ _ _ h h' := by
    obtain ⟨read, hr⟩ := h.reads
    obtain ⟨read', hr'⟩ := h'.reads
    obtain ⟨evs, he, hn⟩ := h.events
    obtain ⟨evs', he', hn'⟩ := h'.events
    refine ⟨h'.user.trans h.user, ⟨evs ++ evs', ?_, ?_⟩, read ++ read', ?_⟩
    · rw [he', he, append_assoc]
    · intro e hmem
      exact (mem_append.mp hmem).elim (hn e) (hn' e)
    · rw [hr, hr', append_assoc]

theorem Frame.advances (h : Frame s s') : Advances s s' :=
  ⟨h.user, ⟨[], by rw [h.events, append_nil], nofun⟩, h.reads⟩

theorem Sound.of_frame (hs : s.Sound env) (h : Frame s s') : s'.Sound env := by
  refine ⟨?_, ?_⟩
  · rw [h.events]
    exact hs.genuine
  · rw [h.events, h.cache]
    exact hs.cached

theorem Sound.new (conn : PacketConn) (c : ω) : (new conn c).Sound env :=
  ⟨nofun, nofun⟩

theorem Sound.log (hs : s.Sound env) (hevents : s'.events = s.events ++ [e])
    (hcache : s'.cache = s.cache) (he : e.Genuine env) : s'.Sound env := by
  refine ⟨?_, ?_⟩
  · intro e' hmem
    rw [hevents] at hmem
    rcases mem_append.mp hmem with h | h
    · exact hs.genuine e' h
    · rw [mem_singleton.mp h]
      exact he
  · intro c hc hr
    rw [hcache] at hc
    obtain ⟨key, hkey⟩ := hs.cached c hc hr
    exact ⟨key, hevents ▸ mem_append_left _ hkey⟩

theorem preserves_modify {R : AuthState ω → AuthState ω → Prop} {f : AuthState ω → AuthState ω}
    (h : ∀ s, R s (f s)) : Preserves R (modify f) := h

theorem preserves_get {R : AuthState ω → AuthState ω → Prop} [IsPreorder (AuthState ω) R]
    {f : AuthState ω → α} : Preserves R (get f) := preserves_of_eq fun _ => rfl

theorem read_frame : Preserves Frame (read : Call Err (AuthState ω) Bytes) := by
  intro s
  unfold read
  cases h : s.conn.incoming with
  | nil => exact refl s
  | cons r incoming =>
    cases r with
    | error e => exact ⟨rfl, rfl, rfl, [.error e], h⟩
    | ok p => exact ⟨rfl, rfl, rfl, [.ok p], h⟩

theorem write_frame : Preserves Frame (write packet : Call Err (AuthState ω) Unit) := by
  intro s
  unfold write
  split
  · exact refl s
  · exact ⟨rfl, rfl, rfl, [], rfl⟩

theorem writeMsg_frame : Preserves Frame (writeMsg packet : Call Err (AuthState ω) Unit) :=
  preserves_inRange.bind fun _ => write_frame

structure Talks (R : AuthState ω → AuthState ω → Prop) : Prop where
  reads : Preserves R (read : Call Err (AuthState ω) Bytes)
  writes : ∀ packet, isFailure packet = false →
    Preserves R (write packet : Call Err (AuthState ω) Unit)
  env : ∀ s c, R s { s with env := c }

structure Logs (R : AuthState ω → AuthState ω → Prop) : Prop extends Talks R where
  log : ∀ s e, e.request? = none → ∀ c cache,
    R s { s with env := c, cache, events := s.events ++ [e] }

theorem frame_talks : Talks (Frame (ω := ω)) where
  reads := read_frame
  writes _ _ := write_frame
  env _ _ := ⟨rfl, rfl, rfl, [], rfl⟩

theorem advances_logs : Logs (Advances (ω := ω)) where
  reads := read_frame.mono fun _ _ => Frame.advances
  writes _ _ := write_frame.mono fun _ _ => Frame.advances
  env s c := (frame_talks.env s c).advances
  log s e h c cache := by
    refine ⟨rfl, ⟨[e], rfl, ?_⟩, [], rfl⟩
    intro e' he
    rwa [mem_singleton.mp he]

section Walk

variable {R : AuthState ω → AuthState ω → Prop}

theorem writeMsg_marshal (t : StructType) (v : Vals t.fields) :
    writeMsg (marshal t v) = (write (t.encode v) : Call Err (AuthState ω) Unit) := by
  rw [t.marshal_eq]
  rfl

theorem Talks.writeMsg (hR : Talks R) {t : StructType} {v : Vals t.fields}
    (h : isFailure (t.encode v) = false) : Preserves R (writeMsg (marshal t v)) := by
  rw [writeMsg_marshal]
  exact hR.writes _ h

variable [IsPreorder (AuthState ω) R]

theorem Talks.challenge (hR : Talks R) (instruction : Bytes) (questions : List Bytes)
    (echos : List Bool) : Preserves R (challenge instruction questions echos) := by
  refine preserves_failIf.bind fun _ => (hR.writeMsg rfl).bind fun _ => hR.reads.bind fun _ => ?_
  exact preserves_inRange.bind fun _ => preserves_failIf.bind fun _ => preserves_ofExcept

theorem Talks.run (hR : Talks R) (i : Interaction ω) : Preserves R i.run := by
  induction i with
  | done perms err c => exact fun s => hR.env s c
  | challenge user instruction questions echos next ih =>
    intro s
    have hs := hR.challenge instruction questions echos s
    unfold Interaction.run
    split
    iterate 2
      · rename_i heq
        rw [heq] at hs
        exact IsTrans.trans _ _ _ hs (ih _ _)
    · rename_i heq
      rw [heq] at hs
      exact hs

theorem Talks.authQuery (hR : Talks R) :
    Preserves R (authQuery algo blob payload candidate) := by
  refine preserves_failIf.bind fun _ => ?_
  split
  · exact (hR.writeMsg rfl).bind fun _ => preserves_pure
  · exact preserves_pure

theorem authSigned_preserves :
    Preserves R (authSigned env req algo blob payload key candidate) := by
  refine preserves_ofExcept.bind fun _ => ?_
  split
  · exact preserves_inRange.bind fun _ => preserves_ofResult.bind fun _ => preserves_pure
  · exact preserves_pure

theorem Talks.checkTries (hR : Talks R) : Preserves R (checkTries env) := by
  refine preserves_get.bind fun _ => ?_
  split
  · exact (hR.writeMsg rfl).bind fun _ => preserves_of_eq fun _ => rfl
  · exact preserves_pure

theorem Logs.authPassword (hR : Logs R) : Preserves R (authPassword env req) := by
  unfold XCryptoSsh.authPassword
  split
  · exact preserves_pure
  refine preserves_ofExcept.bind fun _ => Preserves.bind (fun s => ?_) fun _ => preserves_pure
  exact hR.log s _ rfl _ s.cache

theorem Logs.authKeyboardInteractive (hR : Logs R) : Preserves R (authKeyboardInteractive env) := by
  unfold XCryptoSsh.authKeyboardInteractive
  split
  · exact preserves_pure
  refine preserves_get.bind fun i => (hR.run i).bind fun _ => preserves_get.bind fun _ => ?_
  exact Preserves.bind (fun s => hR.log s _ rfl s.env s.cache) fun _ => preserves_pure

theorem Talks.authPublicKey (hR : Talks R)
    (hlog : ∀ s user blob key perms err c cache,
      R s { s with env := c, cache, events := s.events ++ [.publicKey user blob key perms err] }) :
    Preserves R (authPublicKey env req) := by
  have hlookup : ∀ callback blob key, Preserves R (lookupPublicKey env callback blob key) := by
    intro callback blob key s
    unfold lookupPublicKey
    split
    · exact refl s
    · exact hlog ..
  unfold XCryptoSsh.authPublicKey
  split
  · exact preserves_pure
  refine preserves_orFail.bind fun _ => preserves_orFail.bind fun _ => ?_
  dsimp only
  split
  · refine preserves_orFail.bind fun _ => preserves_ofExcept.bind fun _ => ?_
    refine (hlookup _ _ _).bind fun _ => ?_
    split
    · exact hR.authQuery
    · exact authSigned_preserves
  · exact preserves_pure

theorem Logs.authMethod (hR : Logs R)
    (hnone : req.method = ascii "none" → Preserves R (authNone env)) :
    Preserves R (authMethod env req) := by
  unfold XCryptoSsh.authMethod
  split
  · exact hnone ‹_›
  split
  · exact hR.authPassword
  split
  · exact hR.authKeyboardInteractive
  split
  · exact hR.authPublicKey fun s _ _ _ _ _ => hR.log s _ rfl
  · exact preserves_pure

end Walk

theorem authNone_frame : Preserves Frame (authNone env) := by
  refine Preserves.bind (preserves_modify fun s => ?_) fun _ => preserves_pure
  split
  · exact ⟨rfl, rfl, rfl, [], rfl⟩
  · exact refl s

theorem authMethod_advances : Preserves Advances (authMethod env req) :=
  advances_logs.authMethod fun _ => authNone_frame.mono fun _ _ => Frame.advances

theorem logAttempt_frame : Preserves Frame (logAttempt env req authErr) :=
  preserves_modify fun _ => ⟨rfl, rfl, rfl, [], rfl⟩

theorem settle_frame : Preserves Frame (settle env req outcome) := by
  unfold settle
  split
  · exact preserves_pure
  · exact logAttempt_frame.bind fun _ => preserves_pure
  refine logAttempt_frame.bind fun _ => Preserves.bind ?_ fun _ => preserves_pure
  refine Preserves.bind (preserves_modify fun _ => ⟨rfl, rfl, rfl, [], rfl⟩) fun _ => ?_
  exact preserves_failIf.bind fun _ => writeMsg_frame

/-- What holds after a method was tried: only a grant of the request lets its sender in. -/
def Settles (env : AuthEnv ω) (req : UserAuthRequest) (o : AuthOutcome) (s : AuthState ω) : Prop :=
  s.Sound env ∧ ∀ perms, o = .judged none perms → Granted env req s.events perms

theorem Sound.refused (hs : s.Sound env)
    (h : Call.pure (.judged (some e) p) s = ((.ok o, s') : Result Err _ × _)) :
    Settles env req o s' := by
  obtain ⟨rfl, rfl⟩ := pure_eq_ok.mp h
  exact ⟨hs, nofun⟩

theorem authPassword_sound (hs : s.Sound env) (hu : s.user = req.user)
    (hm : req.method = ascii "password") (h : authPassword env req s = (.ok o, s')) :
    Settles env req o s' := by
  unfold authPassword at h
  cases hcb : env.config.passwordCallback with
  | none =>
    rw [hcb] at h
    exact hs.refused h
  | some callback =>
    rw [hcb] at h
    obtain ⟨pass, hpass, h⟩ := ofExcept_bind_eq_ok.mp h
    obtain ⟨r, s₂, h₂, h⟩ := bind_eq_ok.mp h
    obtain ⟨rfl, rfl⟩ := pure_eq_ok.mp h
    cases h₂
    refine ⟨hs.log rfl rfl ⟨callback, _, _, hcb, rfl⟩, ?_⟩
    intro perms he
    obtain ⟨herr, rfl⟩ := AuthOutcome.judged.inj he
    refine .password hm hpass ?_
    dsimp only at herr ⊢
    rw [getLast?_concat, herr, hu]

theorem authKeyboardInteractive_sound (hs : s.Sound env) (hu : s.user = req.user)
    (hm : req.method = ascii "keyboard-interactive")
    (h : authKeyboardInteractive env s = (.ok o, s')) :
    Settles env req o s' := by
  unfold authKeyboardInteractive at h
  cases hcb : env.config.keyboardInteractiveCallback with
  | none =>
    rw [hcb] at h
    exact hs.refused h
  | some callback =>
    rw [hcb] at h
    obtain ⟨i, s₁, h₁, h⟩ := bind_eq_ok.mp h
    cases h₁
    obtain ⟨⟨perms, err⟩, s₂, hrun, h⟩ := bind_eq_ok.mp h
    obtain ⟨user, s₃, h₃, h⟩ := bind_eq_ok.mp h
    cases h₃
    obtain ⟨_, s₄, h₄, h⟩ := bind_eq_ok.mp h
    cases h₄
    obtain ⟨rfl, rfl⟩ := pure_eq_ok.mp h
    have hf := (frame_talks.run _).relates hrun
    refine ⟨(hs.of_frame hf).log rfl rfl ⟨callback, s, s₂, hcb, hf.user.symm, ?_⟩, ?_⟩
    · dsimp only
      rw [hf.user]
      exact hrun
    intro perms' he
    obtain ⟨herr, rfl⟩ := AuthOutcome.judged.inj he
    refine .keyboardInteractive hm ?_
    dsimp only at herr ⊢
    rw [getLast?_concat, herr, hf.user, hu]

theorem candidateResult_eq_none (h : candidateResult A perms err = none) : err = none := by
  cases err with
  | none => rfl
  | some e => cases h

theorem mem_pubKeyCacheAdd {keys : List CachedPubKey} (h : c ∈ pubKeyCacheAdd keys candidate) :
    c ∈ keys ∨ c = candidate := by
  unfold pubKeyCacheAdd at h
  split at h
  · exact (mem_append.mp h).imp id mem_singleton.mp
  · exact .inl h

theorem lookupPublicKey_sound (hs : s.Sound env) (hkey : parsePublicKey env.elliptic blob = .ok key)
    (hcb : env.config.publicKeyCallback = some callback)
    (h : lookupPublicKey env callback blob key s = (.ok candidate, s')) :
    s'.Sound env ∧ (candidate.result = none →
      .publicKey s.user blob key candidate.perms none ∈ s'.events) := by
  unfold lookupPublicKey at h
  split at h
  · rename_i c hget
    cases h
    refine ⟨hs, ?_⟩
    intro hr
    obtain ⟨key', hmem⟩ := hs.cached _ (mem_of_find?_eq_some hget) hr
    -- the entry is for this user and this blob, and a blob has one key
    have hfound := find?_some hget
    rw [Bool.and_eq_true, beq_iff_eq, beq_iff_eq] at hfound
    rw [hfound.1, hfound.2] at hmem
    have hkey' := (hs.genuine _ hmem).1
    cases hkey.symm.trans hkey'
    exact hmem
  · cases h
    dsimp only
    refine ⟨⟨?_, ?_⟩, ?_⟩
    · intro e he
      rcases mem_append.mp he with he | he
      · exact hs.genuine e he
      · rw [mem_singleton.mp he]
        exact ⟨hkey, callback, _, _, hcb, rfl⟩
    · intro c hc hr
      rcases mem_pubKeyCacheAdd hc with hc | rfl
      · obtain ⟨key', hmem⟩ := hs.cached c hc hr
        exact ⟨key', mem_append_left _ hmem⟩
      refine ⟨key, mem_append_right _ ?_⟩
      rw [candidateResult_eq_none hr]
      exact mem_singleton_self _
    · intro hr
      rw [candidateResult_eq_none hr]
      exact mem_append_right _ (mem_singleton_self _)

theorem authQuery_eq_ok {s s' : AuthState ω}
    (h : authQuery algo blob payload candidate s = (.ok o, s')) : o ≠ .judged none perms := by
  obtain ⟨_, s₁, h₁, h⟩ := bind_eq_ok.mp h
  cases hr : candidate.result with
  | none =>
    rw [hr] at h
    obtain ⟨_, s₂, h₂, h⟩ := bind_eq_ok.mp h
    exact (pure_eq_ok.mp h).1 ▸ nofun
  | some e =>
    rw [hr] at h
    exact (pure_eq_ok.mp h).1 ▸ nofun

theorem authSigned_eq_ok
    (h : authSigned env req algo blob payload key candidate s = (.ok (.judged none perms), s')) :
    candidate.result = none ∧ candidate.perms = perms ∧
      ∃ sig signedData, parseSignature payload = some (sig, []) ∧
        buildDataSignedForAuth env.sessionID req algo blob = some signedData ∧
        key.verify env.verifiers signedData sig = .ok () := by
  obtain ⟨sig, hsig, h⟩ := ofExcept_bind_eq_ok.mp h
  split at h
  · obtain ⟨signedData, s₂, h₂, h⟩ := bind_eq_ok.mp h
    obtain ⟨hdata, rfl⟩ := inRange_eq_ok.mp h₂
    obtain ⟨_, s₃, h₃, h⟩ := bind_eq_ok.mp h
    obtain ⟨hverify, rfl⟩ := ofResult_eq_ok.mp h₃
    obtain ⟨hj, -⟩ := pure_eq_ok.mp h
    obtain ⟨hr, hp⟩ := AuthOutcome.judged.inj hj
    refine ⟨hr, hp, sig, signedData, ?_, hdata, hverify⟩
    unfold parseSignatureOnly at hsig
    split at hsig
    · rename_i sig' hparse
      cases hsig
      exact hparse
    · cases hsig
  · cases (pure_eq_ok.mp h).1

theorem authPublicKey_sound (hs : s.Sound env) (hu : s.user = req.user)
    (hm : req.method = ascii "publickey") (h : authPublicKey env req s = (.ok o, s')) :
    Settles env req o s' := by
  unfold authPublicKey at h
  cases hcb : env.config.publicKeyCallback with
  | none =>
    rw [hcb] at h
    exact hs.refused h
  | some callback =>
    rw [hcb] at h
    obtain ⟨flag, hflag, h⟩ := orFail_bind_eq_ok.mp h
    obtain ⟨⟨algo, payload'⟩, halgo, h⟩ := orFail_bind_eq_ok.mp h
    dsimp only at h
    split at h
    · obtain ⟨⟨blob, payload''⟩, s₃, h₃, h⟩ := bind_eq_ok.mp h
      obtain ⟨hblob, rfl⟩ := orFail_eq_ok.mp h₃
      obtain ⟨key, hkey, h⟩ := ofExcept_bind_eq_ok.mp h
      obtain ⟨candidate, s₅, h₅, h⟩ := bind_eq_ok.mp h
      obtain ⟨hs₅, hcand⟩ := lookupPublicKey_sound hs hkey hcb h₅
      dsimp only at h
      split at h
      · have hf := frame_talks.authQuery.relates h
        exact ⟨hs₅.of_frame hf, fun perms he => absurd he (authQuery_eq_ok h)⟩
      rename_i hne
      have hf := (authSigned_preserves (R := Frame)).relates h
      refine ⟨hs₅.of_frame hf, ?_⟩
      intro perms he
      subst he
      obtain ⟨hr, rfl, sig, signedData, hsig, hdata, hverify⟩ := authSigned_eq_ok h
      obtain ⟨payload, hpayload⟩ := head?_eq_some_iff.mp hflag
      rw [hpayload] at halgo
      refine .publicKey hm hpayload hne halgo hblob hsig hkey hdata hverify ?_
      rw [hf.events, ← hu]
      exact hcand hr
    · exact hs.refused h

theorem authMethod_sound (hs : s.Sound env) (hu : s.user = req.user)
    (h : authMethod env req s = (.ok o, s')) :
    Settles env req o s' := by
  unfold authMethod at h
  split at h
  · rename_i hm
    refine ⟨hs.of_frame (authNone_frame.relates h), ?_⟩
    intro perms he
    obtain ⟨_, s₁, h₁, h⟩ := bind_eq_ok.mp h
    obtain ⟨rfl, rfl⟩ := pure_eq_ok.mp h
    obtain ⟨herr, rfl⟩ := AuthOutcome.judged.inj he
    refine .none hm ?_
    by_contra hno
    rw [if_neg hno] at herr
    cases herr
  split at h
  · rename_i hm
    exact authPassword_sound hs hu hm h
  split at h
  · rename_i hm
    exact authKeyboardInteractive_sound hs hu hm h
  split at h
  · rename_i hm
    exact authPublicKey_sound hs hu hm h
  · exact hs.refused h

theorem checkTries_eq_ok (h : checkTries env s = (.ok u, s')) :
    s = s' ∧ (0 < env.config.maxAuthTries → s.authFailures < env.config.maxAuthTries) := by
  obtain ⟨_, _, h₁, h⟩ := bind_eq_ok.mp h
  cases h₁
  split at h
  · obtain ⟨_, _, -, h⟩ := bind_eq_ok.mp h
    cases h
  · cases h
    exact ⟨rfl, by omega⟩

theorem readRequest_eq_ok (h : readRequest s = (.ok req, s')) :
    ∃ packet m rest, s.conn.incoming = .ok packet :: rest ∧
      unmarshal userAuthRequestMsg packet = .ok m ∧ req = .ofVals m ∧
      s' = { s with conn.incoming := rest } := by
  unfold readRequest read at h
  cases hin : s.conn.incoming with
  | nil =>
    rw [hin] at h
    cases h
  | cons r rest =>
    rw [hin] at h
    cases r with
    | error e => cases h
    | ok packet =>
      obtain ⟨hm, rfl⟩ := ofExcept_eq_ok.mp h
      cases hu : unmarshal userAuthRequestMsg packet with
      | error e =>
        rw [hu] at hm
        cases hm
      | ok m =>
        rw [hu] at hm
        cases hm
        exact ⟨packet, m, rest, rfl, hu, rfl, rfl⟩

def begun (s : AuthState ω) (req : UserAuthRequest) (rest : List (Except Err Bytes)) :
    AuthState ω :=
  { s with
    conn := { s.conn with incoming := rest }
    user := req.user
    events := s.events ++ [.request req s.authFailures] }

theorem authRound_eq_ok (h : authRound env s = (.ok r, s')) :
    ∃ packet m rest o s₂, s.conn.incoming = .ok packet :: rest ∧
      unmarshal userAuthRequestMsg packet = .ok m ∧
      (UserAuthRequest.ofVals m).service = serviceSSH ∧
      (0 < env.config.maxAuthTries → s.authFailures < env.config.maxAuthTries) ∧
      authMethod env (.ofVals m) (s.begun (.ofVals m) rest) = (.ok o, s₂) ∧
      settle env (.ofVals m) o s₂ = (.ok r, s') := by
  obtain ⟨_, t₁, h₁, h⟩ := bind_eq_ok.mp h
  obtain ⟨rfl, htries⟩ := checkTries_eq_ok h₁
  obtain ⟨req, t₂, h₂, h⟩ := bind_eq_ok.mp h
  obtain ⟨packet, m, rest, hin, hm, rfl, rfl⟩ := readRequest_eq_ok h₂
  obtain ⟨_, t₃, h₃, h⟩ := bind_eq_ok.mp h
  obtain ⟨hserv, rfl⟩ := failIf_eq_ok.mp h₃
  obtain ⟨_, t₄, h₄, h⟩ := bind_eq_ok.mp h
  cases h₄
  obtain ⟨o, s₂, hmethod, h⟩ := bind_eq_ok.mp h
  exact ⟨packet, m, rest, o, s₂, hin, hm, not_not.mp hserv, htries, hmethod, h⟩

theorem lastRequest_append {old evs : List AuthEvent} (h : ∀ e ∈ evs, e.request? = none) :
    lastRequest (old ++ .request req failures :: evs) = some req := by
  have hevs : evs.filterMap AuthEvent.request? = [] := filterMap_eq_nil_iff.mpr h
  simp [lastRequest, hevs, AuthEvent.request?]

theorem settle_eq_some (h : settle env req o s = (.ok (some perms), s')) :
    o = .judged none perms := by
  cases o with
  | query => cases (pure_eq_ok.mp h).1
  | judged authErr perms' =>
    cases authErr with
    | none =>
      obtain ⟨_, t, -, h⟩ := bind_eq_ok.mp h
      cases (pure_eq_ok.mp h).1
      rfl
    | some e =>
      obtain ⟨_, t, -, h⟩ := bind_eq_ok.mp h
      obtain ⟨_, t', -, h⟩ := bind_eq_ok.mp h
      cases (pure_eq_ok.mp h).1

/-- The last request of the client, which is for the user the connection then has. -/
def Asked (s s' : AuthState ω) (P : UserAuthRequest → Prop) : Prop :=
  ∃ before packet after m, s.conn.incoming = before ++ .ok packet :: (after ++ s'.conn.incoming) ∧
    unmarshal userAuthRequestMsg packet = .ok m ∧ lastRequest s'.events = some (.ofVals m) ∧
    s'.user = (UserAuthRequest.ofVals m).user ∧ (UserAuthRequest.ofVals m).service = serviceSSH ∧
    P (.ofVals m)

theorem authRound_sound (hs : s.Sound env) (h : authRound env s = (.ok r, s')) :
    s'.Sound env ∧
      Asked s s' fun req => ∀ perms, r = some perms → Granted env req s'.events perms := by
  obtain ⟨packet, m, rest, o, s₂, hin, hm, hserv, -, hmethod, hsettle⟩ := authRound_eq_ok h
  have hs₁ : (s.begun (.ofVals m) rest).Sound env := hs.log rfl rfl trivial
  obtain ⟨hs₂, hgrant⟩ := authMethod_sound hs₁ rfl hmethod
  have ha := authMethod_advances.relates hmethod
  have hf := settle_frame.relates hsettle
  obtain ⟨read, hread⟩ := ha.reads
  obtain ⟨read', hread'⟩ := hf.reads
  obtain ⟨evs, hevs, hnone⟩ := ha.events
  refine ⟨hs₂.of_frame hf, [], packet, read ++ read', m, ?_, hm, ?_, ?_, hserv, ?_⟩
  · rw [hin, append_assoc, ← hread', ← hread]
    rfl
  · rw [hf.events, hevs, begun, append_assoc, singleton_append]
    exact lastRequest_append hnone
  · rw [hf.user, ha.user, begun]
  rintro perms rfl
  rw [hf.events]
  exact hgrant perms (settle_eq_some hsettle)

theorem length_incoming_of_authRound (h : authRound env s = (.ok r, s')) :
    s'.conn.incoming.length < s.conn.incoming.length := by
  obtain ⟨packet, m, rest, o, s₂, hin, -, -, -, hmethod, hsettle⟩ := authRound_eq_ok h
  obtain ⟨read, hread⟩ := (authMethod_advances.relates hmethod).reads
  obtain ⟨read', hread'⟩ := (settle_frame.relates hsettle).reads
  have hlen := congrArg length hread
  rw [hread'] at hlen
  simp only [begun, length_append] at hlen
  rw [hin, length_cons]
  omega

theorem userAuthLoop_of_lt (h : s.conn.incoming.length < n) :
    userAuthLoop env n s = userAuthLoop env (n + 1) s := by
  induction n generalizing s with
  | zero => omega
  | succ n ih =>
    change Call.bind _ _ s = Call.bind _ _ s
    simp only [Call.bind]
    cases hround : authRound env s with
    | mk r s' =>
      cases r with
      | error e => rfl
      | panic => rfl
      | ok r =>
        cases r with
        | some perms => rfl
        | none =>
          have hlt := length_incoming_of_authRound hround
          exact ih (by omega)

theorem userAuthLoop_sound (hs : s.Sound env) (h : userAuthLoop env n s = (.ok perms, s')) :
    s'.Sound env ∧ Asked s s' fun req => Granted env req s'.events perms := by
  induction n generalizing s with
  | zero => cases h
  | succ n ih =>
    obtain ⟨r, s₁, h₁, h⟩ := bind_eq_ok.mp h
    obtain ⟨hs₁, before, packet, after, m, hin, hm, hlast, hu, hserv, hgrant⟩ :=
      authRound_sound hs h₁
    cases r with
    | some p =>
      obtain ⟨rfl, rfl⟩ := pure_eq_ok.mp h
      exact ⟨hs₁, before, packet, after, m, hin, hm, hlast, hu, hserv, hgrant p rfl⟩
    | none =>
      obtain ⟨hs', before', packet', after', m', hin', hrest⟩ := ih hs₁ h
      refine ⟨hs', before ++ .ok packet :: (after ++ before'), packet', after', m', ?_, hrest⟩
      rw [hin, hin']
      simp only [append_assoc, cons_append]

end AuthState

open AuthState

/-- A client is let in only on its last request, for the user the connection then has, and with the
permissions that the callback gave for that user and key. -/
theorem serverAuthenticate_sound {ω : Type} (env : AuthEnv ω) (conn : PacketConn) (c : ω)
    (perms : Option Permissions) (s : AuthState ω)
    (h : serverAuthenticate env (new conn c) = (.ok perms, s)) :
    ∃ before packet after m, conn.incoming = before ++ .ok packet :: (after ++ s.conn.incoming) ∧
      unmarshal userAuthRequestMsg packet = .ok m ∧
      lastRequest s.events = some (.ofVals m) ∧
      s.user = (UserAuthRequest.ofVals m).user ∧
      (UserAuthRequest.ofVals m).service = serviceSSH ∧
      Granted env (.ofVals m) s.events perms ∧
      ∀ e ∈ s.events, e.Genuine env := by
  obtain ⟨r, s₁, h₁, h⟩ := bind_eq_ok.mp h
  obtain ⟨_, s₂, h₂, h⟩ := bind_eq_ok.mp h
  obtain ⟨rfl, rfl⟩ := pure_eq_ok.mp h
  have hf := write_frame.relates h₂
  obtain ⟨hs₁, before, packet, after, m, hin, hm, hlast, hu, hserv, hgrant⟩ :=
    userAuthLoop_sound (Sound.new conn c) h₁
  obtain ⟨read, hread⟩ := hf.reads
  refine ⟨before, packet, after ++ read, m, ?_, hm, ?_, hf.user.trans hu, hserv, ?_, ?_⟩
  · rw [append_assoc, ← hread]
    exact hin
  · rw [hf.events]
    exact hlast
  · rw [hf.events]
    exact hgrant
  · exact (hs₁.of_frame hf).genuine

namespace ServerAuth

def rootBlob : Bytes := encodeString (ascii "ssh-ed25519") ++ encodeString (replicate 32 7)

/-- A server that lets the user root in with any key and counts the calls of its callback. -/
def rootEnv : AuthEnv Nat where
  config :=
    { noClientAuth := false
      maxAuthTries := 6
      passwordCallback := none
      publicKeyCallback := some fun n user _ =>
        if user = ascii "root" then (some ⟨∅, ∅⟩, none, n + 1)
        else (none, some (.text "no such user"), n + 1)
      keyboardInteractiveCallback := none
      authLogCallback := none }
  sessionID := [1, 2, 3]
  elliptic := Handshake.openEnv.prims.elliptic
  verifiers := Handshake.openEnv.verifiers
  addresses := ⟨.unknown, fun _ => none, fun _ _ => false, fun _ => .error ""⟩

def authRequest (user method : String) (payload : Bytes) : Except Err Bytes :=
  .ok (userAuthRequestMsg.encode (ascii user, serviceSSH, ascii method, payload, ()))

def keyPayload (flag : UInt8) : Bytes :=
  flag :: encodeString (ascii "ssh-ed25519") ++ encodeString rootBlob

def rootSignature : Bytes :=
  encodeString (encodeString (ascii "ssh-ed25519") ++ encodeString
    ((buildDataSignedForAuth rootEnv.sessionID
      ⟨ascii "root", serviceSSH, ascii "publickey", []⟩ (ascii "ssh-ed25519") rootBlob).getD []))

/-- A client that asks for two users with one key and then signs for the second of them. -/
def rootConn : PacketConn where
  incoming := [authRequest "root" "none" [], authRequest "guest" "publickey" (keyPayload 0),
    authRequest "root" "publickey" (keyPayload 0),
    authRequest "root" "publickey" (keyPayload 1 ++ rootSignature)]
  outgoing := []
  writeError := fun _ => none

end ServerAuth

open ServerAuth in
theorem serverAuthenticate_sound_root :
    ∃ perms s, serverAuthenticate rootEnv (new rootConn 0) = (.ok perms, s) ∧
      ∃ before packet after m,
        rootConn.incoming = before ++ .ok packet :: (after ++ s.conn.incoming) ∧
        unmarshal userAuthRequestMsg packet = .ok m ∧
        lastRequest s.events = some (.ofVals m) ∧
        s.user = (UserAuthRequest.ofVals m).user ∧
        (UserAuthRequest.ofVals m).service = serviceSSH ∧
        Granted rootEnv (.ofVals m) s.events perms ∧
        ∀ e ∈ s.events, e.Genuine rootEnv := by
  have hrun : (serverAuthenticate rootEnv (new rootConn 0)).1.test
      (fun perms => perms.isSome) = true := by decide +kernel
  obtain ⟨perms, s, hok, -⟩ := exists_of_test hrun
  exact ⟨perms, s, hok, serverAuthenticate_sound rootEnv rootConn 0 perms s hok⟩

end XCryptoSsh
