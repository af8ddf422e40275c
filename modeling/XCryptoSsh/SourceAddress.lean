import XCryptoSsh.AuthCache

namespace XCryptoSsh
open Go Call AuthState
set_option autoImplicit true

/-- A restriction that is not empty is met by the address of the client. -/
def Allowed (A : Addresses) (perms : Option Permissions) : Prop :=
  sourceAddressOf perms ≠ [] → checkSourceAddress A (sourceAddressOf perms) = none

theorem allowed_of_candidateResult (h : candidateResult A perms err = none) : Allowed A perms := by
  intro hne
  cases candidateResult_eq_none h
  rwa [candidateResult, if_pos hne] at h

open AuthState

/-- The restriction on the source address holds for a client that is let in by a public key, if it
is not empty. -/
theorem sourceAddress_of_publickey {ω : Type} (env : AuthEnv ω) (conn : PacketConn) (c : ω)
    (p : Permissions) (s : AuthState ω) (req : UserAuthRequest) (v : Bytes)
    (h : serverAuthenticate env (new conn c) = (.ok (some p), s))
    (hv : p.criticalOptions.lookup sourceAddressCriticalOption = some v)
    (hreq : lastRequest s.events = some req) (hm : req.method = ascii "publickey") (hne : v ≠ []) :
    checkSourceAddress env.addresses v = none := by
  obtain ⟨r, s₁, h₁, h⟩ := bind_eq_ok.mp h
  obtain ⟨_, s₂, h₂, h⟩ := bind_eq_ok.mp h
  obtain ⟨rfl, rfl⟩ := pure_eq_ok.mp h
  have hjudges : Judges env fun k => k.result = none → Allowed env.addresses k.perms :=
    fun _ _ _ _ _ _ _ => allowed_of_candidateResult
  obtain ⟨req', hlast, hcached⟩ := userAuthLoop_caches hjudges (s := .new conn c) nofun h₁
  rw [← (write_frame.relates h₂).events, hreq] at hlast
  cases hlast
  obtain ⟨k, hk, hr, hp⟩ := hcached hm
  have hallowed := hk hr
  have hsource : sourceAddressOf (some p) = v := by
    rw [sourceAddressOf, hv]
    rfl
  rw [hp, Allowed, hsource] at hallowed
  exact hallowed hne

namespace ServerAuth

/-- A server whose callbacks let everyone in, restricted to a source address. -/
def restrictedEnv (v ip : Bytes) : AuthEnv Nat where
  config :=
    { noClientAuth := false
      maxAuthTries := 6
      passwordCallback := some fun n _ _ =>
        (some ⟨.singleton sourceAddressCriticalOption v, ∅⟩, none, n + 1)
      publicKeyCallback := some fun n _ _ =>
        (some ⟨.singleton sourceAddressCriticalOption v, ∅⟩, none, n + 1)
      keyboardInteractiveCallback := none
      authLogCallback := none }
  sessionID := rootEnv.sessionID
  elliptic := rootEnv.elliptic
  verifiers := rootEnv.verifiers
  addresses :=
    { remoteAddr := .tcp ip "client"
      parseIP := fun text => if text = ascii "10.0.0.1" then some [10, 0, 0, 1] else none
      equal := (· == ·)
      parseCIDR := fun _ => .error "invalid CIDR address" }

def passwordConn : PacketConn where
  incoming := [authRequest "root" "password" (0 :: encodeString (ascii "secret"))]
  outgoing := []
  writeError := fun _ => none

def restrictedTo (v : Bytes) : Option Permissions → Bool
  | some p => p.criticalOptions.lookup sourceAddressCriticalOption = some v
  | none => false

theorem exists_restricted {env : AuthEnv ω}
    (h : (serverAuthenticate env s).1.test (restrictedTo v) = true) :
    ∃ p t, serverAuthenticate env s = (.ok (some p), t) ∧
      p.criticalOptions.lookup sourceAddressCriticalOption = some v := by
  obtain ⟨perms, t, hok, hr⟩ := exists_of_test h
  cases perms with
  | none => cases hr
  | some p => exact ⟨p, t, hok, of_decide_eq_true hr⟩

end ServerAuth

open ServerAuth in
/-- A password lets a client in from an address that its permissions exclude, and so does a public
key whose restriction is the empty string. -/
theorem sourceAddress_ignored :
    (∃ p s, serverAuthenticate (restrictedEnv (ascii "10.0.0.1") [10, 0, 0, 9])
        (new passwordConn 0) = (.ok (some p), s) ∧
      p.criticalOptions.lookup sourceAddressCriticalOption = some (ascii "10.0.0.1") ∧
      checkSourceAddress (restrictedEnv (ascii "10.0.0.1") [10, 0, 0, 9]).addresses
        (ascii "10.0.0.1") ≠ none) ∧
    ∃ p s, serverAuthenticate (restrictedEnv [] [10, 0, 0, 9]) (new rootConn 0) =
        (.ok (some p), s) ∧
      p.criticalOptions.lookup sourceAddressCriticalOption = some [] ∧
      checkSourceAddress (restrictedEnv [] [10, 0, 0, 9]).addresses [] ≠ none := by
  have hpass : (serverAuthenticate (restrictedEnv (ascii "10.0.0.1") [10, 0, 0, 9])
      (new passwordConn 0)).1.test (restrictedTo (ascii "10.0.0.1")) = true := by
    decide +kernel
  have hkey : (serverAuthenticate (restrictedEnv [] [10, 0, 0, 9])
      (new rootConn 0)).1.test (restrictedTo []) = true := by
    decide +kernel
  obtain ⟨p, s, hok, hv⟩ := exists_restricted hpass
  obtain ⟨p', s', hok', hv'⟩ := exists_restricted hkey
  exact ⟨⟨p, s, hok, hv, by decide +kernel⟩, p', s', hok', hv', by decide +kernel⟩

open ServerAuth in
theorem sourceAddress_of_publickey_root :
    ∃ p s, serverAuthenticate (restrictedEnv (ascii "10.0.0.1") [10, 0, 0, 1])
        (new rootConn 0) = (.ok (some p), s) ∧
      p.criticalOptions.lookup sourceAddressCriticalOption = some (ascii "10.0.0.1") ∧
      checkSourceAddress (restrictedEnv (ascii "10.0.0.1") [10, 0, 0, 1]).addresses
        (ascii "10.0.0.1") = none := by
  have hrun : (serverAuthenticate (restrictedEnv (ascii "10.0.0.1") [10, 0, 0, 1])
      (new rootConn 0)).1.test (restrictedTo (ascii "10.0.0.1")) = true := by
    decide +kernel
  have hlast : lastRequest (serverAuthenticate (restrictedEnv (ascii "10.0.0.1") [10, 0, 0, 1])
      (new rootConn 0)).2.events = some ⟨ascii "root", serviceSSH, ascii "publickey",
        keyPayload 1 ++ rootSignature⟩ := by
    decide +kernel
  obtain ⟨p, s, hok, hv⟩ := exists_restricted hrun
  rw [hok] at hlast
  exact ⟨p, s, hok, hv, sourceAddress_of_publickey _ rootConn 0 p s _ _ hok hv hlast rfl
    (by decide)⟩

end XCryptoSsh
