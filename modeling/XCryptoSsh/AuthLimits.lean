import XCryptoSsh.ServerAuthSound

namespace XCryptoSsh
open Go Call List UserAuthRequest
set_option autoImplicit true

/-- A call of `PasswordCallback` or `KeyboardInteractiveCallback` has returned. -/
def AuthEvent.isGuess : AuthEvent → Bool
  | .password .. | .keyboardInteractive .. => true
  | _ => false

def UserAuthRequest.isNone (req : UserAuthRequest) : Bool := req.method == ascii "none"

/-- A request of the method none that finds no failure counted, whose own is not counted then. -/
def AuthEvent.isFree : AuthEvent → Bool
  | .request req authFailures => req.isNone && authFailures == 0
  | _ => false

def AuthOutcome.failed : AuthOutcome → Nat
  | .judged (some _) _ => 1
  | _ => 0

def panics : Result ε α → Nat
  | .panic => 1
  | _ => 0

theorem panics_le (r : Result ε α) : panics r ≤ 1 := by
  cases r <;> simp [panics]

namespace AuthState

variable {ω : Type} {env : AuthEnv ω} {req : UserAuthRequest} {s s' : AuthState ω}

def guesses (s : AuthState ω) : Nat := s.events.countP AuthEvent.isGuess

def freeNones (s : AuthState ω) : Nat := s.events.countP AuthEvent.isFree

def refusals (s : AuthState ω) : Nat := s.conn.outgoing.countP isFailure

structure Steady (s s' : AuthState ω) : Prop where
  authFailures : s'.authFailures = s.authFailures
  refusals : s'.refusals = s.refusals
  freeNones : s'.freeNones = s.freeNones

instance : IsPreorder (AuthState ω) Steady where
  refl _ := ⟨rfl, rfl, rfl⟩
  trans _ _ _ h h' := ⟨h'.1.trans h.1, h'.2.trans h.2, h'.3.trans h.3⟩

theorem steady_logs : Logs (Steady (ω := ω)) where
  reads s := by
    unfold read
    cases s.conn.incoming with
    | nil => exact refl s
    | cons r incoming => cases r <;> exact ⟨rfl, rfl, rfl⟩
  writes packet h s := by
    unfold write
    split
    · exact refl s
    · exact ⟨rfl, by simp [refusals, h], rfl⟩
  env _ _ := ⟨rfl, rfl, rfl⟩
  log s e h _ _ := by
    refine ⟨rfl, rfl, ?_⟩
    cases e with
    | request => cases h
    | _ => simp [freeNones, AuthEvent.isFree]

def SameGuesses (s s' : AuthState ω) : Prop := s'.guesses = s.guesses

instance : IsPreorder (AuthState ω) SameGuesses where
  refl _ := rfl
  trans _ _ _ h h' := h'.trans h

theorem Frame.guesses (h : Frame s s') : SameGuesses s s' := by
  rw [SameGuesses, AuthState.guesses, h.events]
  rfl

theorem authMethod_counts (h : authMethod env req s = (r, s')) :
    s'.refusals = s.refusals ∧ s'.freeNones = s.freeNones ∧
      s'.authFailures = if req.isNone ∧ s.authFailures = 0 then -1 else s.authFailures := by
  by_cases hm : req.method = ascii "none"
  · rw [authMethod, if_pos hm] at h
    cases h
    by_cases hf : s.authFailures = 0
    · simp [isNone, hm, hf, refusals, freeNones]
    · simp [hf]
  · have hs : Steady s (authMethod env req s).2 :=
      steady_logs.authMethod (fun hm' => absurd hm' hm) s
    rw [h] at hs
    exact ⟨hs.refusals, hs.freeNones, by simpa [isNone, hm] using hs.authFailures⟩

/-- At most one of the callbacks is called, and a panic ends the call of one. -/
def Costs (x : Call Err (AuthState ω) α) : Prop :=
  ∀ s, (x s).2.guesses + panics (x s).1 ≤ s.guesses + 1

theorem costs_of_same {x : Call Err (AuthState ω) α} (h : Preserves SameGuesses x) : Costs x := by
  intro s
  rw [show (x s).2.guesses = s.guesses from h s]
  exact Nat.add_le_add_left (panics_le _) _

theorem authPassword_costs : Costs (authPassword env req) := by
  intro s
  unfold authPassword
  cases env.config.passwordCallback with
  | none => exact Nat.le_succ _
  | some callback =>
    change ((ofExcept _ >>= _) s).2.guesses + panics ((ofExcept _ >>= _) s).1 ≤ _
    cases hp : parsePassword req.payload with
    | error e => exact Nat.le_succ _
    | ok password => exact (countP_append ..).le

theorem authKeyboardInteractive_costs : Costs (authKeyboardInteractive env) := by
  intro s
  unfold authKeyboardInteractive
  cases env.config.keyboardInteractiveCallback with
  | none => exact Nat.le_succ _
  | some callback =>
    have hf := (frame_talks.run (callback s.env s.user) s).guesses
    change (Call.bind (callback s.env s.user).run _ s).2.guesses +
      panics (Call.bind (callback s.env s.user).run _ s).1 ≤ _
    rw [← hf]
    simp only [Call.bind]
    cases (callback s.env s.user).run s with
    | mk r s₁ =>
      cases r with
      | ok r => exact (countP_append ..).le
      | error e => exact Nat.le_succ _
      | panic => exact le_rfl

theorem authPublicKey_same : Preserves SameGuesses (authPublicKey env req) := by
  have htalks : Talks (SameGuesses (ω := ω)) :=
    ⟨read_frame.mono fun _ _ => Frame.guesses, fun _ _ => write_frame.mono fun _ _ => Frame.guesses,
      fun _ _ => rfl⟩
  refine htalks.authPublicKey fun s user blob key perms err c cache => ?_
  simp [SameGuesses, guesses, AuthEvent.isGuess]

theorem authMethod_same (h : req.method = ascii "none" ∨ req.method = ascii "publickey") :
    Preserves SameGuesses (authMethod env req) := by
  unfold authMethod
  rcases h with h | h
  · rw [if_pos h]
    exact authNone_frame.mono fun _ _ => Frame.guesses
  · rw [h, if_neg (by decide), if_neg (by decide), if_neg (by decide), if_pos rfl]
    exact authPublicKey_same

theorem authMethod_costs (env : AuthEnv ω) (req : UserAuthRequest) :
    Costs (authMethod env req) := by
  unfold authMethod
  split
  · exact costs_of_same (authNone_frame.mono fun _ _ => Frame.guesses)
  split
  · exact authPassword_costs
  split
  · exact authKeyboardInteractive_costs
  split
  · exact costs_of_same authPublicKey_same
  · exact costs_of_same preserves_pure

theorem method_of_query (h : authMethod env req s = (.ok .query, s')) :
    req.method = ascii "publickey" := by
  unfold authMethod at h
  split at h
  · cases h
  split at h
  · unfold authPassword at h
    cases hcb : env.config.passwordCallback with
    | none =>
      rw [hcb] at h
      cases h
    | some callback =>
      rw [hcb] at h
      iterate 2 obtain ⟨_, _, -, h⟩ := bind_eq_ok.mp h
      cases (pure_eq_ok.mp h).1
  split at h
  · unfold authKeyboardInteractive at h
    cases hcb : env.config.keyboardInteractiveCallback with
    | none =>
      rw [hcb] at h
      cases h
    | some callback =>
      rw [hcb] at h
      iterate 4 obtain ⟨_, _, -, h⟩ := bind_eq_ok.mp h
      cases (pure_eq_ok.mp h).1
  split at h
  · assumption
  · cases h

theorem bind_pure_eq {x : Call ε σ β} {b : γ} :
    ((x >>= fun _ => pure b) t).2 = (x t).2 ∧
      panics ((x >>= fun _ => pure b : Call ε σ γ) t).1 = panics (x t).1 := by
  change (Call.bind x _ t).2 = _ ∧ panics (Call.bind x _ t).1 = _
  simp only [Call.bind]
  split <;> simp_all [pure, Call.pure, panics]

theorem write_counts (packet : Bytes) (s : AuthState ω) :
    (write packet s).2.authFailures = s.authFailures ∧
      (write packet s).2.refusals ≤ s.refusals + 1 ∧ panics (write packet s).1 = 0 := by
  unfold write
  split
  · exact ⟨rfl, Nat.le_succ _, rfl⟩
  · refine ⟨rfl, ?_, rfl⟩
    simp only [refusals, countP_append]
    exact Nat.add_le_add_left countP_le_length _

theorem refuse_counts (s : AuthState ω) : (refuse env s).2.authFailures = s.authFailures + 1 ∧
    (refuse env s).2.refusals ≤ s.refusals + 1 ∧ panics (refuse env s).1 = 0 := by
  have hmsg : writeMsg (marshal userAuthFailureMsg (failureMethods env.config, false, ())) =
    (write _ : Call Err (AuthState ω) Unit) := writeMsg_marshal _ _
  rw [refuse, hmsg]
  by_cases hm : (failureMethods env.config).length = 0
  · simp only [failIf, if_pos hm]
    exact ⟨rfl, Nat.le_succ _, rfl⟩
  · simp only [failIf, if_neg hm]
    exact write_counts _ { s with authFailures := s.authFailures + 1 }

theorem settle_counts (env : AuthEnv ω) (req : UserAuthRequest) (o : AuthOutcome)
    (s : AuthState ω) :
    (settle env req o s).2.authFailures = s.authFailures + o.failed ∧
      (settle env req o s).2.refusals ≤ s.refusals + o.failed ∧
      panics (settle env req o s).1 = 0 := by
  cases o with
  | query => exact ⟨(Int.add_zero _).symm, Nat.le_refl _, rfl⟩
  | judged e p =>
    cases e with
    | none => exact ⟨(Int.add_zero _).symm, Nat.le_refl _, rfl⟩
    | some e =>
      have hend : (settle env req (.judged (some e) p) s).2 =
          (refuse env (logAttempt env req (some e) s).2).2 ∧
        panics (settle env req (.judged (some e) p) s).1 =
          panics (refuse env (logAttempt env req (some e) s).2).1 := bind_pure_eq
      rw [hend.1, hend.2]
      exact refuse_counts (logAttempt env req (some e) s).2

theorem Talks.readRequest {R : AuthState ω → AuthState ω → Prop} (hR : Talks R) :
    Preserves R readRequest := by
  intro s
  have hs := hR.reads s
  unfold XCryptoSsh.readRequest
  split
  · rename_i packet s₁ heq
    rw [heq] at hs
    cases (unmarshal userAuthRequestMsg packet).map ofVals <;> exact hs
  all_goals
    rename_i heq
    rw [heq] at hs
    exact hs

theorem checkTries_ne_panic : (checkTries env s).1 ≠ .panic := by
  have hmsg : writeMsg (marshal disconnectMsg
      ((2 : UInt32), ascii "too many authentication failures", [], ())) =
    (write _ : Call Err (AuthState ω) Unit) := writeMsg_marshal _ _
  intro h
  rw [checkTries, hmsg] at h
  obtain h | ⟨_, s₁, -, h⟩ := bind_eq_panic.mp h
  · cases h
  split at h
  · obtain h | ⟨_, _, -, h⟩ := bind_eq_panic.mp h
    · unfold write at h
      split at h <;> cases h
    · cases h
  · cases h

theorem readRequest_ne_panic : (readRequest s).1 ≠ .panic := by
  unfold readRequest read
  cases s.conn.incoming with
  | nil => exact nofun
  | cons r incoming =>
    cases r with
    | error e => exact nofun
    | ok packet =>
      change (ofExcept _ _ : Result Err UserAuthRequest × AuthState ω).1 ≠ _
      cases (unmarshal userAuthRequestMsg packet).map ofVals <;> exact nofun

theorem authRound_cases (env : AuthEnv ω) (s : AuthState ω) :
    (∃ e s', authRound env s = (.error e, s') ∧ Steady s s' ∧ Frame s s') ∨
      ∃ req rest, (0 < env.config.maxAuthTries → s.authFailures < env.config.maxAuthTries) ∧
        authRound env s = (authMethod env req >>= settle env req) (s.begun req rest) := by
  have hp : (checkTries env s).1 ≠ .panic := checkTries_ne_panic
  have hs := (steady_logs.checkTries : Preserves _ (checkTries env)) s
  have hf := (frame_talks.checkTries : Preserves _ (checkTries env)) s
  have hp' := readRequest_ne_panic (s := s)
  have hs' := steady_logs.readRequest s
  have hf' := frame_talks.readRequest s
  cases hc : checkTries env s with
  | mk r s₁ =>
    rw [hc] at hp hs hf
    cases r with
    | panic => exact absurd rfl hp
    | error e => exact .inl ⟨e, s₁, bind_of_error hc, hs, hf⟩
    | ok u =>
      obtain ⟨rfl, hlt⟩ := checkTries_eq_ok hc
      cases hr : readRequest s with
      | mk r s₁ =>
        rw [hr] at hp' hs' hf'
        cases r with
        | panic => exact absurd rfl hp'
        | error e => exact .inl ⟨e, s₁, (bind_of_ok hc).trans (bind_of_error hr), hs', hf'⟩
        | ok req =>
          obtain ⟨packet, m, rest, -, -, -, rfl⟩ := readRequest_eq_ok hr
          by_cases hserv : req.service ≠ serviceSSH
          · exact .inl ⟨_, _, (bind_of_ok hc).trans ((bind_of_ok hr).trans
              (by simp only [failIf, if_pos hserv]; rfl)), hs', hf'⟩
          · exact .inr ⟨req, rest, hlt, (bind_of_ok hc).trans ((bind_of_ok hr).trans
              (by simp only [failIf, if_neg hserv]; rfl))⟩

/-- What holds between two rounds, with `k` failures sent before. -/
structure Within (env : AuthEnv ω) (k : Nat) (s : AuthState ω) : Prop where
  nonneg : 0 ≤ s.authFailures
  le : s.authFailures ≤ env.config.maxAuthTries
  guesses : (s.guesses : Int) ≤ s.authFailures
  refusals : (s.refusals : Int) ≤ k + s.authFailures + s.freeNones

structure Spent (env : AuthEnv ω) (k : Nat) (r : Result Err α × AuthState ω) : Prop where
  guesses : (r.2.guesses + panics r.1 : Int) ≤ env.config.maxAuthTries
  refusals : (r.2.refusals : Int) ≤ k + env.config.maxAuthTries + r.2.freeNones

theorem settle_eq_none (h : settle env req o s = (.ok none, s')) : o = .query ∨ o.failed = 1 := by
  cases o with
  | query => exact .inl rfl
  | judged e p =>
    cases e with
    | none => cases h
    | some e => exact .inr rfl

theorem guesses_begun (s : AuthState ω) (req : UserAuthRequest) (rest : List (Except Err Bytes)) :
    (s.begun req rest).guesses = s.guesses ∧
      (s.begun req rest).freeNones = s.freeNones + if req.isNone ∧
        s.authFailures = 0 then 1 else 0 := by
  constructor
  · simp [guesses, begun, AuthEvent.isGuess]
  · simp [freeNones, begun, AuthEvent.isFree]

theorem authRound_spent (hm : 0 < env.config.maxAuthTries) (h : Within env k s) :
    Spent env k (authRound env s) := by
  obtain ⟨h0, hle, hguess, href⟩ := h
  obtain ⟨e, s', hr, hs, hf⟩ | ⟨req, rest, hlt, hr⟩ := authRound_cases env s
  · have hg : s'.guesses = s.guesses := hf.guesses
    have hs₁ := hs.refusals
    have hs₂ := hs.freeNones
    rw [hr]
    exact ⟨by simp only [panics]; omega, by dsimp only; omega⟩
  have hlt := hlt hm
  have hb := guesses_begun s req rest
  have hcost := authMethod_costs env req (s.begun req rest)
  rw [hr]
  change Spent env k (Call.bind (authMethod env req) _ _)
  simp only [Call.bind]
  cases hmethod : authMethod env req (s.begun req rest) with
  | mk r s₂ =>
    obtain ⟨href₂, hfree₂, -⟩ := authMethod_counts hmethod
    change s₂.refusals = s.refusals at href₂
    rw [hmethod] at hcost
    dsimp only at hcost
    cases r with
    | ok o =>
      have hc := settle_counts env req o s₂
      have hf := (settle_frame : Preserves _ (settle env req o)) s₂
      have hg : (settle env req o s₂).2.guesses = s₂.guesses := hf.guesses
      have hn : (settle env req o s₂).2.freeNones = s₂.freeNones := by
        rw [freeNones, hf.events]
        rfl
      have ho : o.failed ≤ 1 := by
        cases o with
        | query => exact Nat.zero_le _
        | judged e p => cases e <;> simp [AuthOutcome.failed]
      change Spent env k (settle env req o s₂)
      exact ⟨by omega, by omega⟩
    | error e => exact ⟨by dsimp only [panics] at *; omega, by dsimp only; omega⟩
    | panic => exact ⟨by dsimp only [panics] at *; omega, by dsimp only; omega⟩

theorem authRound_within (hm : 0 < env.config.maxAuthTries) (h : Within env k s)
    (hr : authRound env s = (.ok none, s')) : Within env k s' := by
  obtain ⟨packet, m, rest, o, s₂, -, -, -, hlt, hmethod, hsettle⟩ := authRound_eq_ok hr
  have hlt := hlt hm
  generalize ofVals m = req at hmethod hsettle
  obtain ⟨href₂, hfree₂, hf₂⟩ := authMethod_counts hmethod
  have hcost := authMethod_costs env req (s.begun req rest)
  have hsame := fun h => (authMethod_same h : Preserves _ (authMethod env req)) (s.begun req rest)
  obtain ⟨hb, hfree⟩ := guesses_begun s req rest
  obtain ⟨hfail, href', -⟩ := settle_counts env req o s₂
  have hf := settle_frame.relates hsettle
  have hg : s'.guesses = s₂.guesses := hf.guesses
  have hn : s'.freeNones = s₂.freeNones := by
    rw [freeNones, hf.events]
    rfl
  rw [hsettle] at hfail href'
  rw [hmethod] at hcost hsame
  change s₂.refusals = s.refusals at href₂
  change s₂.authFailures = if req.isNone ∧ s.authFailures = 0 then _ else s.authFailures at hf₂
  simp only [SameGuesses, panics] at hcost hsame hfail href'
  obtain ⟨h0, hmax, hguess, href⟩ := h
  obtain rfl | ho := settle_eq_none hsettle
  · have hq := method_of_query hmethod
    have hn : req.isNone = false := by rw [isNone, hq]; rfl
    have hsame := hsame (.inr hq)
    simp only [hn, AuthOutcome.failed, Bool.false_eq_true, false_and, if_false] at *
    exact ⟨by omega, by omega, by omega, by omega⟩
  rw [ho] at hfail href'
  split at hf₂
  · rename_i hz
    have hsame := hsame (.inl (beq_iff_eq.mp hz.1))
    rw [if_pos hz] at hfree
    exact ⟨by omega, by omega, by omega, by omega⟩
  · rename_i hz
    rw [if_neg hz] at hfree
    exact ⟨by omega, by omega, by omega, by omega⟩

theorem userAuthLoop_spent (hm : 0 < env.config.maxAuthTries) (h : Within env k s) (n : Nat) :
    Spent env k (userAuthLoop env n s) := by
  induction n generalizing s with
  | zero =>
    obtain ⟨h0, hle, hguess, href⟩ := h
    exact ⟨by simp only [userAuthLoop, fail, panics]; omega,
      by simp only [userAuthLoop, fail]; omega⟩
  | succ n ih =>
    have hs := authRound_spent hm h
    change Spent env k (Call.bind (authRound env) _ s)
    simp only [Call.bind]
    split
    · rename_i r s₁ heq
      rw [heq] at hs
      cases r with
      | some perms => exact ⟨hs.guesses, hs.refusals⟩
      | none => exact ih (authRound_within hm h heq)
    all_goals
      rename_i heq
      rw [heq] at hs
      exact ⟨hs.guesses, hs.refusals⟩

theorem serverAuthenticate_spent (conn : PacketConn) (c : ω) (hm : 0 < env.config.maxAuthTries) :
    Spent env (conn.outgoing.countP isFailure) (serverAuthenticate env (.new conn c)) := by
  have hnew : Within env (conn.outgoing.countP isFailure) (.new conn c : AuthState ω) :=
    ⟨le_rfl, hm.le, le_rfl, by simp [AuthState.new, refusals, freeNones]⟩
  have hs := userAuthLoop_spent hm hnew (conn.incoming.length + 1)
  change Spent env _ (Call.bind (userAuthLoop env (conn.incoming.length + 1)) _ (.new conn c))
  simp only [Call.bind]
  split
  · rename_i perms s₁ heq
    rw [heq] at hs
    have hf : Frame s₁ (write [msgUserAuthSuccess] s₁).2 := write_frame s₁
    have hg := hf.guesses
    have hw := steady_logs.writes [msgUserAuthSuccess] rfl s₁
    have hp := (write_counts [msgUserAuthSuccess] s₁).2.2
    obtain ⟨hend, hpanic⟩ := bind_pure_eq (x := write [msgUserAuthSuccess]) (t := s₁) (b := perms)
    refine ⟨?_, ?_⟩
    · rw [hend, hpanic, hp, hg]
      exact hs.guesses
    · rw [hend, hw.refusals, hw.freeNones]
      exact hs.refusals
  all_goals
    rename_i heq
    rw [heq] at hs
    exact ⟨hs.guesses, hs.refusals⟩

end AuthState

open AuthState

/-- Every call of `PasswordCallback` or `KeyboardInteractiveCallback` costs a try, also one that a
panic ends. -/
theorem guesses_le_maxAuthTries {ω : Type} (env : AuthEnv ω) (conn : PacketConn) (c : ω)
    (hm : 0 < env.config.maxAuthTries) :
    ((serverAuthenticate env (.new conn c)).2.guesses +
      panics (serverAuthenticate env (.new conn c)).1 : Int) ≤ env.config.maxAuthTries :=
  (serverAuthenticate_spent conn c hm).guesses

/-- When at most one request of the method none finds no failure counted, there is at most one
failure more than there are tries. -/
theorem refusals_le_maxAuthTries {ω : Type} (env : AuthEnv ω) (conn : PacketConn) (c : ω)
    (hm : 0 < env.config.maxAuthTries)
    (hn : (serverAuthenticate env (.new conn c)).2.freeNones ≤ 1) :
    ((serverAuthenticate env (.new conn c)).2.refusals : Int) ≤
      (.new conn c : AuthState ω).refusals + (env.config.maxAuthTries + 1) := by
  have h := (serverAuthenticate_spent conn c hm).refusals
  change _ ≤ (conn.outgoing.countP isFailure : Int) + _
  omega

namespace ServerAuth

def strictEnv (tries : Int) : AuthEnv Nat :=
  { rootEnv with
    config := { rootEnv.config with
      maxAuthTries := tries
      passwordCallback := some fun n _ _ => (none, some (.text "wrong password"), n + 1) } }

def repeatedConn (method : String) (payload : Bytes) : PacketConn where
  incoming := List.replicate 3 (authRequest "root" method payload)
  outgoing := []
  writeError := fun _ => none

def passwordRun : Result Err (Option Permissions) × AuthState Nat :=
  serverAuthenticate (strictEnv 2) (.new (repeatedConn "password" (0 :: encodeString [1])) 0)

end ServerAuth

open ServerAuth

theorem guesses_of_passwords : passwordRun.2.guesses = 2 ∧
    (passwordRun.2.guesses + panics passwordRun.1 : Int) ≤ 2 :=
  ⟨by decide +kernel, guesses_le_maxAuthTries (strictEnv 2) _ 0 (by decide)⟩

/-- With one try, three requests of the method none get three failures. -/
theorem refusals_of_nones :
    (serverAuthenticate (strictEnv 1) (.new (repeatedConn "none" []) 0)).2.refusals = 3 := by
  decide +kernel

theorem refusals_of_passwords : (passwordRun.2.refusals : Int) ≤ 0 + (2 + 1) :=
  refusals_le_maxAuthTries (strictEnv 2) _ 0 (by decide) (by decide +kernel)

end XCryptoSsh
