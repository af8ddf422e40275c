import XCryptoSsh.Revocation

namespace XCryptoSsh
open Go List Option Result
set_option autoImplicit true

theorem lookup_foldl_first [BEq κ] [LawfulBEq κ] (p : α → Bool) (key : α → κ) (val : α → β)
    (as : List α) (known : List (κ × β)) (k : κ) :
    (as.foldl (fun known a =>
      if p a && (known.lookup (key a)).isNone then known ++ [(key a, val a)] else known)
        known).lookup k =
      (known.lookup k).or ((as.find? fun a => p a && key a == k).map val) := by
  induction as generalizing known with
  | nil => exact (or_none).symm
  | cons a as ih =>
    rw [foldl_cons, ih, find?_cons]
    by_cases hk : key a = k
    · subst k
      cases hp : p a with
      | false => simp
      | true =>
        cases hl : known.lookup (key a) with
        | none => simp [lookup_append, hl]
        | some v => simp [hl]
    · have hne : (key a == k) = false := beq_eq_false_iff_ne.mpr hk
      have hne' : (k == key a) = false := beq_eq_false_iff_ne.mpr (Ne.symm hk)
      rw [hne, Bool.and_false]
      split
      · simp [lookup_append, lookup_cons, hne']
      · rfl

namespace KnownHosts

theorem keyEq_refl (E : Elliptic) (k : PublicKey) : keyEq E k k = true := keyEq_iff.mpr rfl

theorem keyEq_trans (h : keyEq E a b = true) (h' : keyEq E b c = true) : keyEq E a c = true :=
  keyEq_iff.mpr ((keyEq_iff.mp h).trans (keyEq_iff.mp h'))

namespace HostKeyDB

variable {env : Env} {db : HostKeyDB}

def firstLine (env : Env) (db : HostKeyDB) (addrs : List Addr) (typ : String) : Option KeyDBLine :=
  db.lines.find? fun l => l.matcher.matchAddrs env addrs && l.knownKey.key.type == typ

theorem lookup_knownKeys (addrs : List Addr) (typ : String) :
    (db.knownKeys env addrs).lookup typ =
      (db.firstLine env addrs typ).map fun l => l.knownKey := by
  rw [knownKeys, lookup_foldl_first, lookup_nil, none_or]
  rfl

theorem checkAddrs_eq_ok : db.checkAddrs env addrs key = .ok () ↔
    ∃ l, db.firstLine env addrs key.type = some l ∧
      keyEq env.elliptic l.knownKey.key key = true := by
  have hlookup : (db.knownKeys env addrs).lookup key.type = _ := lookup_knownKeys addrs key.type
  unfold checkAddrs
  dsimp only
  split
  · rename_i hnil
    rw [hnil, lookup_nil] at hlookup
    rw [map_eq_none_iff.mp hlookup.symm]
    exact iff_of_false nofun nofun
  rw [hlookup]
  cases hf : db.firstLine env addrs key.type with
  | none => exact iff_of_false nofun nofun
  | some l =>
    rw [map_some]
    dsimp only
    by_cases hk : keyEq env.elliptic l.knownKey.key key = true
    · rw [if_pos hk]
      exact iff_of_true rfl ⟨l, rfl, hk⟩
    rw [if_neg hk]
    refine iff_of_false nofun ?_
    rintro ⟨l', hl', hk'⟩
    cases hl'
    exact hk hk'

def addrsOf (address remote : Bytes) : Result HostKeyErr (List Addr) := do
  let a ← splitAddr remote
  if address ≠ [] then
    let a' ← splitAddr address
    pure [a, a']
  else pure [a]

theorem check_eq_of_notMem (h : key.written env.elliptic ∉ db.revoked) :
    db.check env address remote key =
      addrsOf address remote >>= fun addrs => db.checkAddrs env addrs key := by
  rw [check, PublicKey.marshal_eq_written]
  dsimp only [Result.ofOption, Result.ok_bind]
  rw [Finmap.lookup_eq_none.mpr h]
  dsimp only
  rw [addrsOf, Result.bind_assoc]
  refine Result.bind_congr fun a => ?_
  by_cases ha : address ≠ []
  · rw [if_pos ha, if_pos ha, Result.bind_assoc]
    rfl
  · rw [if_neg ha, if_neg ha]
    rfl

theorem check_eq_ok : db.check env address remote key = .ok () ↔
    key.written env.elliptic ∉ db.revoked ∧ ∃ addrs, addrsOf address remote = .ok addrs ∧
      ∃ l, db.firstLine env addrs key.type = some l ∧
        keyEq env.elliptic l.knownKey.key key = true := by
  by_cases hr : key.written env.elliptic ∈ db.revoked
  · refine iff_of_false ?_ fun h => h.1 hr
    obtain ⟨k, hk⟩ := Finmap.mem_iff.mp hr
    rw [check, PublicKey.marshal_eq_written]
    dsimp only [ofOption, ok_bind]
    rw [hk]
    simp
  · rw [check_eq_of_notMem hr, bind_eq_ok]
    simp only [checkAddrs_eq_ok, hr, not_false_eq_true, true_and]

/-- A line without the marker `@cert-authority` that matches the addresses lists the key. -/
def Vouched (env : Env) (db : HostKeyDB) (addrs : List Addr) (key : PublicKey) : Prop :=
  ∃ l ∈ db.lines, l.cert = false ∧ l.matcher.matchAddrs env addrs = true ∧
    keyEq env.elliptic l.knownKey.key key = true

theorem Vouched.congr (h : db.Vouched env addrs a) (hk : keyEq env.elliptic a b = true) :
    db.Vouched env addrs b := by
  obtain ⟨l, hl, hc, hm, hka⟩ := h
  exact ⟨l, hl, hc, hm, keyEq_trans hka hk⟩

theorem firstLine_spec (h : db.firstLine env addrs typ = some l) :
    l ∈ db.lines ∧ l.matcher.matchAddrs env addrs = true ∧ l.knownKey.key.type = typ := by
  have hp := find?_some h
  obtain ⟨hm, ht⟩ := Bool.and_eq_true_iff.mp hp
  exact ⟨mem_of_find?_eq_some h, hm, beq_iff_eq.mp ht⟩

theorem type_raw_ne_cert (key : RawKey) (c : Certificate) (k : PublicKey) :
    (PublicKey.raw key).type ≠ (PublicKey.cert c k).type := by
  intro h
  exact KeyAlgo.name_ne_certName key.algo c.key.algo (congrArg ascii h)

/-- The marked lines that `check` would take for a plain key: the first of its type to match, with a
key that is not revoked. -/
def Misleads (env : Env) (db : HostKeyDB) (addrs : List Addr) (l : KeyDBLine) : Prop :=
  l.cert = true ∧ db.firstLine env addrs l.knownKey.key.type = some l ∧
    (∃ key, l.knownKey.key = .raw key) ∧ l.knownKey.key.written env.elliptic ∉ db.revoked

/-- `check` only accepts plain keys that an unmarked line vouches for when the same is true of the
keys on the marked lines that it would take. -/
theorem check_vouched_iff (h : addrsOf address remote = .ok addrs) :
    (∀ key, db.check env address remote (.raw key) = .ok () → db.Vouched env addrs (.raw key)) ↔
      ∀ l, db.Misleads env addrs l → db.Vouched env addrs l.knownKey.key := by
  constructor
  · rintro hv l ⟨-, hf, ⟨key, hkey⟩, hr⟩
    rw [hkey] at hf hr ⊢
    apply hv
    refine check_eq_ok.mpr ⟨hr, addrs, h, l, hf, ?_⟩
    rw [hkey]
    exact keyEq_refl _ _
  · intro hv key hc
    obtain ⟨hr, addrs', ha, l, hf, hk⟩ := check_eq_ok.mp hc
    cases h.symm.trans ha
    obtain ⟨hmem, hmatch, htype⟩ := firstLine_spec hf
    cases hcert : l.cert with
    | false => exact ⟨l, hmem, hcert, hmatch, hk⟩
    | true =>
      apply Vouched.congr (hv l ?_) hk
      refine ⟨hcert, by rw [htype]; exact hf, ?_, ?_⟩
      · cases hl : l.knownKey.key with
        | raw key' => exact ⟨key', rfl⟩
        | cert c k =>
          rw [hl] at htype
          exact absurd htype.symm (type_raw_ne_cert key c k)
      · rw [keyEq_iff.mp hk]
        exact hr

end HostKeyDB

/-- An environment with one file, which holds the line `host` with the host key after a marker. -/
def hostEnv (marker : String) : Env :=
  let entry := ascii marker ++ (line PublicKey.onePoint [ascii "host"] (.raw hostKey)).getD []
  { revokedEnv with readFile := fun _ => .ok entry }

def acceptsHostKey (env : Env) (marked : Bool) : Bool :=
  match load env newHostKeyDB ["known_hosts"] with
  | .ok db =>
    (match db.check env (ascii "host:22") (ascii "host:22") (.raw hostKey) with
      | .ok _ => true
      | _ => false) && db.lines.all fun l => l.cert == marked
  | _ => false

theorem exists_of_acceptsHostKey (h : acceptsHostKey env marked = true) :
    ∃ db, load env newHostKeyDB ["known_hosts"] = .ok db ∧
      db.check env (ascii "host:22") (ascii "host:22") (.raw hostKey) = .ok () ∧
      ∀ l ∈ db.lines, l.cert = marked := by
  unfold acceptsHostKey at h
  split at h
  · rename_i db hload
    obtain ⟨hcheck, hlines⟩ := Bool.and_eq_true_iff.mp h
    refine ⟨db, hload, ?_, fun l hl => beq_iff_eq.mp (all_eq_true.mp hlines l hl)⟩
    split at hcheck
    · rename_i hok
      exact hok
    · cases hcheck
  · cases h

/-- The key of an authority is accepted as the key of a host. -/
theorem check_accepts_authority :
    ∃ db, load (hostEnv "@cert-authority ") newHostKeyDB ["known_hosts"] = .ok db ∧
      db.check (hostEnv "@cert-authority ") (ascii "host:22") (ascii "host:22") (.raw hostKey) =
        .ok () ∧
      ∀ addrs, ¬ db.Vouched (hostEnv "@cert-authority ") addrs (.raw hostKey) := by
  have haccepts : acceptsHostKey (hostEnv "@cert-authority ") true = true := by decide +kernel
  obtain ⟨db, hload, hcheck, hmarked⟩ := exists_of_acceptsHostKey haccepts
  refine ⟨db, hload, hcheck, ?_⟩
  rintro addrs ⟨l, hl, hc, -⟩
  rw [hmarked l hl] at hc
  cases hc

theorem check_vouched_host :
    ∃ db, load (hostEnv "") newHostKeyDB ["known_hosts"] = .ok db ∧
      db.Vouched (hostEnv "") [⟨ascii "host", ascii "22"⟩, ⟨ascii "host", ascii "22"⟩]
        (.raw hostKey) := by
  have haccepts : acceptsHostKey (hostEnv "") false = true := by decide +kernel
  obtain ⟨db, hload, hcheck, hmarked⟩ := exists_of_acceptsHostKey haccepts
  have haddrs : HostKeyDB.addrsOf (ascii "host:22") (ascii "host:22") =
      .ok [⟨ascii "host", ascii "22"⟩, ⟨ascii "host", ascii "22"⟩] := rfl
  refine ⟨db, hload, (HostKeyDB.check_vouched_iff haddrs).mpr ?_ hostKey hcheck⟩
  rintro l ⟨hc, hf, -⟩
  rw [hmarked l (HostKeyDB.firstLine_spec hf).1] at hc
  cases hc

end KnownHosts
end XCryptoSsh
