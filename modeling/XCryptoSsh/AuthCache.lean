import XCryptoSsh.ServerAuthSound

namespace XCryptoSsh
open Go Call
set_option autoImplicit true

def Judges (env : AuthEnv ω) (P : CachedPubKey → Prop) : Prop :=
  ∀ callback, env.config.publicKeyCallback = some callback →
    ∀ c user blob key, parsePublicKey env.elliptic blob = .ok key →
      P ⟨user, blob, candidateResult env.addresses (callback c user key).1
        (callback c user key).2.1,
        (callback c user key).1⟩

namespace AuthState

variable {ω : Type} {env : AuthEnv ω} {req : UserAuthRequest} {s s' : AuthState ω}
variable {P : CachedPubKey → Prop}

def Caches (P : CachedPubKey → Prop) (s : AuthState ω) : Prop := ∀ c ∈ s.cache, P c

theorem Caches.of_cache (h : s.Caches P) (hc : s'.cache = s.cache) : s'.Caches P := by
  unfold Caches
  rwa [hc]

theorem lookupPublicKey_caches (hP : Judges env P) (hs : s.Caches P)
    (hkey : parsePublicKey env.elliptic blob = .ok key)
    (hcb : env.config.publicKeyCallback = some callback)
    (h : lookupPublicKey env callback blob key s = (.ok candidate, s')) :
    s'.Caches P ∧ P candidate := by
  unfold lookupPublicKey at h
  split at h
  · rename_i c hget
    cases h
    exact ⟨hs, hs _ (List.mem_of_find?_eq_some hget)⟩
  cases h
  have hnew := hP callback hcb s.env s.user blob key hkey
  refine ⟨?_, hnew⟩
  intro c hc
  obtain hc | rfl := mem_pubKeyCacheAdd hc
  · exact hs c hc
  · exact hnew

theorem authPublicKey_caches (hP : Judges env P) (hs : s.Caches P)
    (h : authPublicKey env req s = (.ok o, s')) :
    s'.Caches P ∧ ∀ perms, o = .judged none perms → ∃ c, P c ∧ c.result = none ∧
      c.perms = perms := by
  unfold authPublicKey at h
  cases hcb : env.config.publicKeyCallback with
  | none =>
    rw [hcb] at h
    obtain ⟨rfl, rfl⟩ := pure_eq_ok.mp h
    exact ⟨hs, nofun⟩
  | some callback =>
    rw [hcb] at h
    obtain ⟨flag, -, h⟩ := orFail_bind_eq_ok.mp h
    obtain ⟨⟨algo, payload'⟩, -, h⟩ := orFail_bind_eq_ok.mp h
    dsimp only at h
    split at h
    · obtain ⟨⟨blob, payload''⟩, s₃, h₃, h⟩ := bind_eq_ok.mp h
      obtain ⟨-, rfl⟩ := orFail_eq_ok.mp h₃
      obtain ⟨key, hkey, h⟩ := ofExcept_bind_eq_ok.mp h
      obtain ⟨candidate, s₅, h₅, h⟩ := bind_eq_ok.mp h
      obtain ⟨hs₅, hcand⟩ := lookupPublicKey_caches hP hs hkey hcb h₅
      dsimp only at h
      split at h
      · have hf := frame_talks.authQuery.relates h
        exact ⟨hs₅.of_cache hf.cache, fun perms he => absurd he (authQuery_eq_ok h)⟩
      have hf := (authSigned_preserves (R := Frame)).relates h
      refine ⟨hs₅.of_cache hf.cache, ?_⟩
      rintro perms rfl
      obtain ⟨hr, hperms, -⟩ := authSigned_eq_ok h
      exact ⟨candidate, hcand, hr, hperms⟩
    · obtain ⟨rfl, rfl⟩ := pure_eq_ok.mp h
      exact ⟨hs, nofun⟩

def SameCache (s s' : AuthState ω) : Prop := s'.cache = s.cache

instance : IsPreorder (AuthState ω) SameCache where
  refl _ := rfl
  trans _ _ _ h h' := h'.trans h

theorem authPassword_cache : Preserves SameCache (authPassword env req) := by
  unfold authPassword
  split
  · exact preserves_pure
  · exact preserves_ofExcept.bind fun _ => Preserves.bind (fun _ => rfl) fun _ => preserves_pure

theorem authKeyboardInteractive_cache : Preserves SameCache (authKeyboardInteractive env) := by
  unfold authKeyboardInteractive
  split
  · exact preserves_pure
  refine preserves_get.bind fun i => ((frame_talks.run i).mono fun _ _ h => h.cache).bind fun _ =>
    ?_
  refine preserves_get.bind fun _ => Preserves.bind ?_ fun _ => preserves_pure
  exact preserves_modify fun _ => rfl

theorem authMethod_caches (hP : Judges env P) (hs : s.Caches P)
    (h : authMethod env req s = (.ok o, s')) :
    s'.Caches P ∧ ∀ perms, o = .judged none perms → req.method = ascii "publickey" →
      ∃ c, P c ∧ c.result = none ∧ c.perms = perms := by
  unfold authMethod at h
  split at h
  · rename_i hm
    refine ⟨hs.of_cache (authNone_frame.relates h).cache, fun _ _ hp => ?_⟩
    exact absurd (hm.symm.trans hp) (by decide)
  split at h
  · rename_i hm
    refine ⟨hs.of_cache (authPassword_cache.relates h), fun _ _ hp => ?_⟩
    exact absurd (hm.symm.trans hp) (by decide)
  split at h
  · rename_i hm
    refine ⟨hs.of_cache (authKeyboardInteractive_cache.relates h), fun _ _ hp => ?_⟩
    exact absurd (hm.symm.trans hp) (by decide)
  split at h
  · obtain ⟨hs', hg⟩ := authPublicKey_caches hP hs h
    exact ⟨hs', fun perms he _ => hg perms he⟩
  · obtain ⟨rfl, rfl⟩ := pure_eq_ok.mp h
    exact ⟨hs, nofun⟩

theorem authRound_caches (hP : Judges env P) (hs : s.Caches P) (h : authRound env s = (.ok r, s')) :
    s'.Caches P ∧ ∃ req, lastRequest s'.events = some req ∧
      ∀ perms, r = some perms → req.method = ascii "publickey" →
        ∃ c, P c ∧ c.result = none ∧ c.perms = perms := by
  obtain ⟨packet, m, rest, o, s₂, hin, hm, hserv, -, hmethod, hsettle⟩ := authRound_eq_ok h
  obtain ⟨hs₂, hgrant⟩ := authMethod_caches hP (show (s.begun _ rest).Caches P from hs) hmethod
  obtain ⟨evs, hevs, hnone⟩ := (authMethod_advances.relates hmethod).events
  have hf := settle_frame.relates hsettle
  refine ⟨hs₂.of_cache hf.cache, .ofVals m, ?_, ?_⟩
  · rw [hf.events, hevs, begun, List.append_assoc, List.singleton_append]
    exact lastRequest_append hnone
  · rintro perms rfl
    exact hgrant perms (settle_eq_some hsettle)

theorem userAuthLoop_caches (hP : Judges env P) (hs : s.Caches P)
    (h : userAuthLoop env n s = (.ok perms, s')) :
    ∃ req, lastRequest s'.events = some req ∧ (req.method = ascii "publickey" →
      ∃ c, P c ∧ c.result = none ∧ c.perms = perms) := by
  induction n generalizing s with
  | zero => cases h
  | succ n ih =>
    obtain ⟨r, s₁, h₁, h⟩ := bind_eq_ok.mp h
    obtain ⟨hs₁, req, hlast, hgrant⟩ := authRound_caches hP hs h₁
    cases r with
    | some p =>
      obtain ⟨rfl, rfl⟩ := pure_eq_ok.mp h
      exact ⟨req, hlast, hgrant p rfl⟩
    | none => exact ih hs₁ h

end AuthState

end XCryptoSsh
