import XCryptoSsh.CertBytes
import XCryptoSsh.KnownHosts

namespace XCryptoSsh
open Go List Result
set_option autoImplicit true

namespace KnownHosts

def EntryRevokes (E : Elliptic) (entry : Bytes) (key : PublicKey) : Prop :=
  ∃ host key', parseLine E entry = .ok (.revoked, host, key') ∧ keyEq E key' key = true

def entryRevokes (E : Elliptic) (entry : Bytes) (key : PublicKey) : Bool :=
  match parseLine E entry with
  | .ok (.revoked, _, key') => keyEq E key' key
  | _ => false

theorem entryRevokes_iff : entryRevokes E entry key = true ↔ EntryRevokes E entry key := by
  unfold entryRevokes
  constructor
  · intro h
    split at h
    · rename_i host key' hp
      exact ⟨host, key', hp, h⟩
    · cases h
  · rintro ⟨host, key', hp, h⟩
    rw [hp]
    exact h

instance : Decidable (EntryRevokes E entry key) := decidable_of_iff _ entryRevokes_iff

def LinesRevoke (E : Elliptic) (ls : List Bytes) (key : PublicKey) : Prop :=
  ∃ l ∈ ls, ∃ entry ∈ entryOf l, EntryRevokes E entry key

instance : Decidable (LinesRevoke E ls key) :=
  inferInstanceAs (Decidable (∃ l ∈ ls, ∃ entry ∈ entryOf l, EntryRevokes E entry key))

/-- The key is on a `@revoked` line of one of the files. -/
def Revoked (env : Env) (files : List String) (key : PublicKey) : Prop :=
  ∃ fn ∈ files, ∃ contents, env.readFile fn = .ok contents ∧
    LinesRevoke env.elliptic (textLines contents).1 key

theorem keyEq_iff : keyEq E a b = true ↔ a.written E = b.written E := by
  rw [keyEq, PublicKey.marshal_eq_written, PublicKey.marshal_eq_written, beq_iff_eq,
    Option.some_inj]

namespace HostKeyDB

theorem mem_revoked_of_parseLine {db db' : HostKeyDB}
    (h : db.parseLine E entry filename linenum = .ok db') :
    key.written E ∈ db'.revoked ↔ key.written E ∈ db.revoked ∨ EntryRevokes E entry key := by
  obtain ⟨⟨marker, pattern, key'⟩, hp, h⟩ := bind_eq_ok.mp h
  have hp := ofExcept_eq_ok.mp hp
  have hentry : EntryRevokes E entry key ↔ marker = .revoked ∧ key'.written E = key.written E := by
    constructor
    · rintro ⟨host, key'', hp', heq⟩
      cases hp.symm.trans hp'
      exact ⟨rfl, keyEq_iff.mp heq⟩
    · rintro ⟨rfl, heq⟩
      exact ⟨pattern, key', hp, keyEq_iff.mpr heq⟩
  rw [hentry]
  dsimp only at h
  split at h
  · rename_i hmarker
    rw [PublicKey.marshal_eq_written] at h
    cases h
    rw [Finmap.mem_insert]
    constructor
    · rintro (heq | hmem)
      · exact .inr ⟨hmarker, heq.symm⟩
      · exact .inl hmem
    · rintro (hmem | ⟨-, heq⟩)
      · exact .inr hmem
      · exact .inl heq.symm
  · rename_i hmarker
    obtain ⟨matcher, -, h⟩ := bind_eq_ok.mp h
    cases h
    constructor
    · exact .inl
    rintro (hmem | ⟨hm, -⟩)
    · exact hmem
    · exact absurd hm hmarker

theorem mem_revoked_of_readLines {db db' : HostKeyDB}
    (h : db.readLines E filename n ls = .ok db') :
    key.written E ∈ db'.revoked ↔ key.written E ∈ db.revoked ∨ LinesRevoke E ls key := by
  induction ls generalizing db n with
  | nil =>
    cases h
    exact ⟨.inl, fun h => h.resolve_right nofun⟩
  | cons l ls ih =>
    rw [readLines] at h
    have hcons : LinesRevoke E (l :: ls) key ↔
        (∃ entry ∈ entryOf l, EntryRevokes E entry key) ∨ LinesRevoke E ls key :=
      exists_mem_cons_iff _ _ _
    rw [hcons]
    split at h
    · rename_i hnone
      rw [ih h]
      simp only [hnone, Option.not_mem_none, false_and, exists_false, false_or]
    rename_i entry hentry
    split at h
    · rename_i db₁ hline
      rw [ih h, mem_revoked_of_parseLine hline, or_assoc, hentry]
      simp only [Option.mem_some_iff, exists_eq_left']
    · cases h
    · cases h

end HostKeyDB

theorem mem_revoked_of_load {db db' : HostKeyDB} (h : load env db files = .ok db') :
    key.written env.elliptic ∈ db'.revoked ↔
      key.written env.elliptic ∈ db.revoked ∨ Revoked env files key := by
  induction files generalizing db with
  | nil =>
    cases h
    exact ⟨.inl, fun h => h.resolve_right nofun⟩
  | cons fn files ih =>
    obtain ⟨contents, hfile, h⟩ := bind_eq_ok.mp h
    obtain ⟨db₁, hread, h⟩ := bind_eq_ok.mp h
    obtain ⟨db₂, hlines, hread⟩ := bind_eq_ok.mp hread
    have hfile := ofExcept_eq_ok.mp hfile
    have hdb : db₂ = db₁ := by
      split at hread
      · cases hread
      · cases hread
        rfl
    subst db₂
    have hcons : Revoked env (fn :: files) key ↔ (∃ contents, env.readFile fn = .ok contents ∧
        LinesRevoke env.elliptic (textLines contents).1 key) ∨ Revoked env files key :=
      exists_mem_cons_iff _ _ _
    rw [ih h, HostKeyDB.mem_revoked_of_readLines hlines, or_assoc, hcons, hfile]
    simp only [Except.ok.injEq, exists_eq_left']

/-- The database without its `@revoked` lines. -/
def HostKeyDB.unrevoked (db : HostKeyDB) : HostKeyDB := { db with revoked := ∅ }

namespace HostKeyDB

variable {env : Env} {db : HostKeyDB}

theorem isRevoked_iff : db.isRevoked env c k = true ↔
    (PublicKey.cert c k).written env.elliptic ∈ db.revoked := by
  rw [isRevoked, PublicKey.marshal_eq_written, Option.any_some, Finmap.lookup_isSome]

theorem hostKeyCallback_of_revoked (h : key.written env.elliptic ∈ db.revoked) :
    ∃ e, db.hostKeyCallback env addr remote key = .error e := by
  cases key with
  | raw key =>
    obtain ⟨k, hk⟩ := Finmap.mem_iff.mp h
    refine ⟨.revokedError k, ?_⟩
    change db.check env addr remote (.raw key) = _
    rw [check, PublicKey.marshal_eq_written]
    dsimp only [ofOption, ok_bind]
    rw [hk]
  | cert c k =>
    have hr : (db.certChecker env).isRevoked.any (fun isRevoked => isRevoked c k) = true :=
      isRevoked_iff.mpr h
    rw [hostKeyCallback, CertChecker.checkHostKey]
    split
    · exact ⟨_, rfl⟩
    split
    · exact ⟨_, rfl⟩
    split
    · exact ⟨_, rfl⟩
    · rw [CertChecker.checkCert, if_pos hr]
      exact ⟨_, rfl⟩

theorem hostKeyCallback_unrevoked (h : key.written env.elliptic ∉ db.revoked) :
    db.hostKeyCallback env addr remote key = db.unrevoked.hostKeyCallback env addr remote key := by
  cases key with
  | raw key =>
    change db.check env addr remote (.raw key) = db.unrevoked.check env addr remote (.raw key)
    rw [check, check, PublicKey.marshal_eq_written]
    dsimp only [ofOption, ok_bind]
    rw [Finmap.lookup_eq_none.mpr h]
    rfl
  | cert c k =>
    have hr : ¬ (db.certChecker env).isRevoked.any (fun isRevoked => isRevoked c k) = true :=
      fun hr => h (isRevoked_iff.mp hr)
    have hr' : ¬ (db.unrevoked.certChecker env).isRevoked.any
        (fun isRevoked => isRevoked c k) = true :=
      fun hr => Finmap.notMem_empty (isRevoked_iff.mp hr)
    rw [hostKeyCallback, hostKeyCallback, CertChecker.checkHostKey, CertChecker.checkHostKey]
    simp only [CertChecker.checkCert, if_neg hr, if_neg hr']
    rfl

end HostKeyDB

def authorityKey : PublicKey := .raw (.ed25519 (replicate 32 9))

def hostKey : RawKey := .ed25519 (replicate 32 7)

def hostCertificate : Certificate where
  nonce := [1, 2, 3]
  key := hostKey
  serial := 1
  certType := hostCert
  keyId := ascii "id"
  validPrincipals := []
  validAfter := 0
  validBefore := certTimeInfinity
  permissions := ⟨∅, ∅⟩
  reserved := []
  signature := some ⟨ascii "ssh-ed25519", [1]⟩

def knownHosts : Bytes :=
  let entry (marker : String) (host : String) (key : PublicKey) : Bytes :=
    ascii marker ++ [0x20] ++ (line PublicKey.onePoint [ascii host] key).getD [] ++ [0x0a]
  entry "@cert-authority" "host" authorityKey ++ entry "@revoked" "*" authorityKey ++
    entry "@revoked" "*" (.raw hostKey)

def revokedEnv : Env where
  elliptic := PublicKey.onePoint
  verifiers :=
    { sha1 := id
      ecHash := fun _ => id
      rsaVerify := fun _ _ _ _ => none
      dsaVerify := fun _ _ _ _ _ _ _ => true
      ecdsaVerify := fun _ _ _ _ _ _ => true
      ed25519Verify := fun _ _ _ => true }
  hmacSHA1 := fun _ data => data
  readFile := fun _ => .ok knownHosts
  now := 0

def accepts (env : Env) (files : List String) (addr : Bytes) (key : PublicKey) : Bool :=
  match new env files with
  | .ok callback =>
    match callback addr addr key with
    | .ok _ => true
    | _ => false
  | _ => false

theorem exists_of_accepts (h : accepts env files addr key = true) :
    ∃ callback, new env files = .ok callback ∧ callback addr addr key = .ok () := by
  unfold accepts at h
  split at h
  · rename_i callback hnew
    split at h
    · rename_i hok
      exact ⟨callback, hnew, hok⟩
    · cases h
  · cases h

theorem revoked_keys : Revoked revokedEnv ["known_hosts"] (.raw hostKey) ∧
    Revoked revokedEnv ["known_hosts"] authorityKey ∧
    accepts revokedEnv ["known_hosts"] (ascii "host:22") (.cert hostCertificate authorityKey) =
      true :=
  ⟨⟨"known_hosts", mem_singleton.mpr rfl, knownHosts, rfl, by decide +kernel⟩,
    ⟨"known_hosts", mem_singleton.mpr rfl, knownHosts, rfl, by decide +kernel⟩,
    by decide +kernel⟩

end KnownHosts

theorem int64_eq (n : UInt64) :
    int64 n = if n.toNat < 2 ^ 63 then (n.toNat : Int) else n.toNat - 2 ^ 64 := by
  rw [int64, BitVec.toInt_eq_toNat_cond, UInt64.toNat_toBitVec]
  split <;> split <;> omega

theorem guard_eq_ok [Decidable p] {x : Result ε α} :
    (if p then .error e else x) = .ok a ↔ ¬ p ∧ x = .ok a := by
  by_cases h : p <;> simp [h]

namespace CertChecker

theorem unsupportedOption_eq_none {c : CertChecker ε} : c.unsupportedOption opts = none ↔
    ∀ opt ∈ opts, opt = sourceAddressCriticalOption ∨ opt ∈ c.supportedCriticalOptions := by
  rw [unsupportedOption, find?_eq_none]
  refine forall_congr' fun opt => ?_
  simp [Finmap.mem_keys, imp_iff_not_or]

/-- When `CheckCert` returns nil; `Unix` returns an `int64`. -/
theorem checkCert_eq_ok_iff {ε : Type} (E : Elliptic) (V : Verifiers) (c : CertChecker ε)
    (principal : Bytes) (cert : Certificate) (k : PublicKey) (hclock : c.clock < 2 ^ 63) :
    c.checkCert E V principal cert k = .ok () ↔
      (∀ isRevoked, c.isRevoked = some isRevoked → isRevoked cert k = false) ∧
      (∀ opt ∈ cert.permissions.criticalOptions,
        opt = sourceAddressCriticalOption ∨ opt ∈ c.supportedCriticalOptions) ∧
      (cert.validPrincipals = [] ∨ principal ∈ cert.validPrincipals) ∧
      (cert.validAfter.toNat : Int) ≤ c.clock ∧
      (cert.validBefore = certTimeInfinity ∨
        c.clock < cert.validBefore.toNat ∧ cert.validBefore.toNat < 2 ^ 63) ∧
      ∃ data sig, cert.bytesForSigning E k = some data ∧ cert.signature = some sig ∧
        k.verify V data sig = .ok () := by
  have hafter : ¬ (int64 cert.validAfter < 0 ∨ c.clock < int64 cert.validAfter) ↔
      (cert.validAfter.toNat : Int) ≤ c.clock := by
    have hlt := cert.validAfter.toNat_lt
    rw [int64_eq]
    split <;> omega
  have hbefore : ¬ (cert.validBefore ≠ certTimeInfinity ∧
      (c.clock ≥ int64 cert.validBefore ∨ int64 cert.validBefore < 0)) ↔
      (cert.validBefore = certTimeInfinity ∨
        c.clock < cert.validBefore.toNat ∧ cert.validBefore.toNat < 2 ^ 63) := by
    have hlt := cert.validBefore.toNat_lt
    rw [int64_eq, not_and_or, not_not]
    refine or_congr_right ?_
    split <;> omega
  rw [checkCert, guard_eq_ok, ← unsupportedOption_eq_none]
  refine and_congr (by cases c.isRevoked <;> simp) ?_
  cases c.unsupportedOption cert.permissions.criticalOptions with
  | some opt => exact iff_of_false nofun nofun
  | none =>
    rw [guard_eq_ok, guard_eq_ok, guard_eq_ok, hafter, hbefore, and_iff_right rfl]
    refine and_congr (by simp [or_iff_not_imp_left, length_pos_iff]) ?_
    refine and_congr_right' (and_congr_right' ?_)
    rw [cert.bytesForSigning_eq]
    cases cert.signature with
    | none => exact iff_of_false nofun nofun
    | some sig =>
      dsimp only
      split <;> simp_all

open KnownHosts in
theorem checkCert_hostCertificate : (newHostKeyDB.certChecker revokedEnv).checkCert
    revokedEnv.elliptic revokedEnv.verifiers (ascii "host") hostCertificate authorityKey =
      .ok () := by
  refine (checkCert_eq_ok_iff _ _ _ _ _ _ (by decide)).mpr ⟨?_, ?_, .inl rfl, by decide, .inl rfl,
    _, _, hostCertificate.bytesForSigning_eq _ _, rfl, rfl⟩
  · rintro _ ⟨⟩
    exact Bool.eq_false_iff.mpr fun h => Finmap.notMem_empty (HostKeyDB.isRevoked_iff.mp h)
  · exact fun _ h => absurd h Finmap.notMem_empty

end CertChecker

end XCryptoSsh
