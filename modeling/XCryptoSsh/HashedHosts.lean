import XCryptoSsh.Revocation

namespace XCryptoSsh
open Go List Option
set_option autoImplicit true
set_option maxRecDepth 4000

theorem base64Digit_spec (h : n < 64) :
    base64Value (base64Digit n) = some n ∧ base64Digit n ≠ 0x3d := by
  have hall : ∀ n < 64, base64Value (base64Digit n) = some n ∧ base64Digit n ≠ 0x3d := by
    decide
  exact hall n h

theorem ofNat_eq {a : UInt8} (h : n % 256 = a.toNat) : UInt8.ofNat n = a :=
  UInt8.toNat_inj.mp (UInt8.toNat_ofNat'.trans h)

theorem base64Digits_spec (h : n < 16777216) :
    base64Value (base64Digit (n / 262144)) = some (n / 262144) ∧
      base64Value (base64Digit (n / 4096 % 64)) = some (n / 4096 % 64) ∧
      (base64Value (base64Digit (n / 64 % 64)) = some (n / 64 % 64) ∧
        base64Digit (n / 64 % 64) ≠ 0x3d) ∧
      base64Value (base64Digit (n % 64)) = some (n % 64) ∧ base64Digit (n % 64) ≠ 0x3d :=
  ⟨(base64Digit_spec (by omega)).1, (base64Digit_spec (by omega)).1, base64Digit_spec (by omega),
    base64Digit_spec (by omega)⟩

theorem base64Groups_base64Encode (b : Bytes) : base64Groups (base64Encode b) = some b := by
  match b with
  | [] => rfl
  | [a] =>
    have ha := a.toNat_lt
    obtain ⟨hx, hy, -⟩ := base64Digits_spec (n := a.toNat * 65536) (by omega)
    simp only [base64Encode, base64Groups, hx, hy, bind_eq_bind, bind_some,
      and_self, ↓reduceIte, some.injEq, cons.injEq, and_true]
    exact ofNat_eq (by omega)
  | [a, b] =>
    have ha := a.toNat_lt
    have hb := b.toNat_lt
    obtain ⟨hx, hy, ⟨hz, hz'⟩, -⟩ :=
      base64Digits_spec (n := a.toNat * 65536 + b.toNat * 256) (by omega)
    simp only [base64Encode, base64Groups, hx, hy, hz, hz', bind_eq_bind, bind_some,
      ↓reduceIte, some.injEq, cons.injEq, and_true]
    exact ⟨ofNat_eq (by omega), ofNat_eq (by omega)⟩
  | a :: b :: c :: rest =>
    have ha := a.toNat_lt
    have hb := b.toNat_lt
    have hc := c.toNat_lt
    obtain ⟨hx, hy, ⟨hz, hz'⟩, hw, hw'⟩ :=
      base64Digits_spec (n := a.toNat * 65536 + b.toNat * 256 + c.toNat) (by omega)
    simp only [base64Encode, base64Groups, hx, hy, hz, hz', hw, hw', bind_eq_bind,
      base64Groups_base64Encode rest, bind_some, ↓reduceIte, some.injEq,
      cons.injEq, and_true]
    exact ⟨ofNat_eq (by omega), ofNat_eq (by omega), ofNat_eq (by omega)⟩

theorem ne_of_mem_base64Encode (h : x ∈ base64Encode b) : x ≠ 0x0a ∧ x ≠ 0x0d ∧ x ≠ 0x7c := by
  have hall : ∀ x ∈ base64Alphabet, x ≠ 0x0a ∧ x ≠ 0x0d ∧ x ≠ 0x7c := by decide
  rcases mem_of_base64Groups (base64Groups_base64Encode b) x h with h | rfl
  · exact hall x h
  · decide

theorem base64Decode_base64Encode (b : Bytes) : base64Decode (base64Encode b) = .ok b := by
  have hf : (base64Encode b).filter (fun x => x != 0x0a && x != 0x0d) = base64Encode b :=
    filter_eq_self.mpr fun x hx => by simp [(ne_of_mem_base64Encode hx).1,
      (ne_of_mem_base64Encode hx).2.1]
  rw [base64Decode, hf, base64Groups_base64Encode]

theorem exists_last {x : List α} (h : a ∈ x) : ∃ l r, x = l ++ a :: r ∧ a ∉ r := by
  obtain ⟨r, l, he, hr⟩ := eq_append_cons_of_mem (mem_reverse.mpr h)
  refine ⟨l.reverse, r.reverse, ?_, by simpa using hr⟩
  rw [← reverse_reverse x, he]
  simp

theorem last_colon {l p : Bytes} (hp : 0x3a ∉ p) :
    (l ++ 0x3a :: p).length - 1 - (l ++ 0x3a :: p).reverse.idxOf 0x3a = l.length := by
  rw [reverse_append, reverse_cons, append_assoc,
    idxOf_append_of_notMem (by simpa using hp), singleton_append, idxOf_cons_self]
  simp

theorem splitHostPort_eq_ok : splitHostPort x = .ok (h, p) ↔
    (0x5b ∉ h ∧ 0x5d ∉ h) ∧ (0x3a ∉ p ∧ 0x5b ∉ p ∧ 0x5d ∉ p) ∧
      (x = 0x5b :: (h ++ [0x5d]) ++ 0x3a :: p ∨ 0x3a ∉ h ∧ x = h ++ 0x3a :: p) := by
  constructor
  · intro hx
    unfold splitHostPort at hx
    split at hx
    · cases hx
    rename_i hc
    obtain ⟨l, q, rfl, hq⟩ := exists_last (not_not.mp hc)
    have hport : (l ++ 0x3a :: q).drop (l.length + 1) = q := by simp
    simp only [last_colon hq, hport, take_left] at hx
    split at hx
    · rename_i hhead
      split at hx
      · cases hx
      rename_i hb
      obtain ⟨a, b, he, ha⟩ := eq_append_cons_of_mem (not_not.mp hb)
      have hclose : (l ++ 0x3a :: q).idxOf 0x5d = a.length := by
        rw [he, idxOf_append_of_notMem ha, idxOf_cons_self, Nat.add_zero]
      simp only [hclose] at hx
      split_ifs at hx with _ hlen _ hopen hshut
      all_goals cases hx
      rw [not_not] at hlen
      have he' : l ++ 0x3a :: p = (a ++ [0x5d]) ++ b := by rw [he]; simp
      obtain ⟨rfl, rfl⟩ := append_inj he' (by simp [hlen])
      cases a with
      | nil => cases hhead
      | cons y a =>
        cases hhead
        have hopen : 0x5b ∉ a ∧ 0x5b ∉ p := by simpa using hopen
        have hshut : 0x5d ∉ p := by simpa using hshut
        have hhost : 0x5d ∉ a := fun hm => ha (mem_cons_of_mem _ hm)
        simpa using ⟨⟨hopen.1, hhost⟩, hq, hopen.2, hshut⟩
    · split_ifs at hx with hl hopen hshut
      all_goals cases hx
      have hopen : 0x5b ∉ h ∧ 0x5b ∉ p := by simpa using hopen
      have hshut : 0x5d ∉ h ∧ 0x5d ∉ p := by simpa using hshut
      exact ⟨⟨hopen.1, hshut.1⟩, ⟨hq, hopen.2, hshut.2⟩, .inr ⟨hl, rfl⟩⟩
  · rintro ⟨⟨ho, hs⟩, ⟨hp, hpo, hps⟩, rfl | ⟨hc, rfl⟩⟩
    · have hclose : (0x5b :: (h ++ [0x5d]) ++ 0x3a :: p).idxOf 0x5d = h.length + 1 := by
        have hs' : (0x5d : UInt8) ∉ 0x5b :: h := by simp [hs]
        rw [← cons_append, append_assoc, idxOf_append_of_notMem hs']
        simp
      unfold splitHostPort
      simp only [last_colon hp, hclose]
      simp [ho, hpo, hps]
    · have hhead : (h ++ 0x3a :: p).head? ≠ some 0x5b := by
        cases h with
        | nil => exact nofun
        | cons y h => simpa using fun hy : y = 0x5b => ho (hy ▸ mem_cons_self)
      unfold splitHostPort
      simp only [last_colon hp, hhead, if_false, take_left]
      simp [hc, ho, hs, hpo, hps]

namespace KnownHosts

def sha1HashType : Bytes := ascii "1"

def encodeHash (typ salt hash : Bytes) : Bytes :=
  [0x7c].intercalate [[], typ, base64Encode salt, base64Encode hash]

/-- The salt is what the random source gave. -/
def hashHostname (env : Env) (hostname salt : Bytes) : Bytes :=
  encodeHash sha1HashType salt (hashHost env hostname salt)

theorem newHashedHost_encodeHash (salt hash : Bytes) :
    newHashedHost (encodeHash sha1HashType salt hash) = .ok (.hashed ⟨salt, hash⟩) := by
  have hsplit : (encodeHash sha1HashType salt hash).splitOn 0x7c =
      [[], sha1HashType, base64Encode salt, base64Encode hash] := by
    refine splitOn_intercalate _ ?_ (cons_ne_nil _ _)
    have hb (b : Bytes) : 0x7c ∉ base64Encode b := fun hm => (ne_of_mem_base64Encode hm).2.2 rfl
    simp [hb, sha1HashType, ascii]
  have hd : decodeHash (encodeHash sha1HashType salt hash) = .ok (sha1HashType, salt, hash) := by
    have hhead : (encodeHash sha1HashType salt hash).head? = some 0x7c := rfl
    simp only [decodeHash, hhead, hsplit, decodeBase64, base64Decode_base64Encode]
    rfl
  rw [newHashedHost, hd]
  rfl

theorem normalize_string (hx : splitHostPort x = .ok (h, p)) :
    normalize (Addr.string ⟨h, p⟩) = normalize x := by
  have hs : splitHostPort (Addr.string ⟨h, p⟩) = .ok (h, p) := by
    obtain ⟨hh, hp, -⟩ := splitHostPort_eq_ok.mp hx
    refine splitHostPort_eq_ok.mpr ⟨hh, hp, ?_⟩
    by_cases hc : 0x3a ∈ h
    · exact .inl (by simp [Addr.string, hc])
    · exact .inr ⟨hc, by simp [Addr.string, hc]⟩
  rw [normalize, normalize, hs, hx]

theorem normalize_brackets (x : Bytes) :
    normalize ([0x5b] ++ x ++ [0x5d]) = [0x5b] ++ x ++ [0x5d] := by
  cases hs : splitHostPort ([0x5b] ++ x ++ [0x5d]) with
  | error e =>
    rw [normalize, hs]
    simp
  | ok hp =>
    -- the last byte belongs to the port, which has no bracket
    obtain ⟨-, ⟨-, -, hport⟩, he⟩ := splitHostPort_eq_ok.mp hs
    have hlast : ∃ pre, [0x5b] ++ x ++ [0x5d] = pre ++ 0x3a :: hp.2 :=
      he.elim (fun h => ⟨_, h⟩) fun h => ⟨_, h.2⟩
    obtain ⟨pre, hpre⟩ := hlast
    have hmem : 0x5d ∈ 0x3a :: hp.2 := by
      have hl := congrArg getLast? hpre
      rw [getLast?_concat, getLast?_append_of_ne_nil _ (cons_ne_nil _ _)] at hl
      exact mem_of_getLast? hl.symm
    exact absurd hmem (by simp [hport])

theorem normalize_normalize (s : Bytes) : normalize (normalize s) = normalize s := by
  have hbare (x : Bytes) (hx : 0x3a ∉ x) : normalize x = x := by
    have he : ∃ e, splitHostPort x = .error e := ⟨_, if_pos hx⟩
    obtain ⟨e, he⟩ := he
    simp [normalize, he, hx]
  cases hs : splitHostPort s with
  | ok hp =>
    obtain ⟨h, p⟩ := hp
    obtain ⟨hh, hport, -⟩ := splitHostPort_eq_ok.mp hs
    by_cases hp : p = ascii "22"
    · by_cases hc : 0x3a ∈ h
      · have hn : normalize s = [0x5b] ++ h ++ [0x5d] := by
          have hopen : h.head? ≠ some 0x5b := fun hm => hh.1 (mem_of_mem_head? hm)
          simp [normalize, hs, hp, hc, hopen]
        rw [hn, normalize_brackets]
      · have hn : normalize s = h := by simp [normalize, hs, hp, hc]
        rw [hn, hbare h hc]
    · have hn : normalize s = [0x5b] ++ h ++ [0x5d, 0x3a] ++ p := by simp [normalize, hs, hp]
      have hs' : splitHostPort ([0x5b] ++ h ++ [0x5d, 0x3a] ++ p) = .ok (h, p) :=
        splitHostPort_eq_ok.mpr ⟨hh, hport, .inl (by simp)⟩
      rw [hn, normalize, hs']
      simp [hp]
  | error e =>
    by_cases hc : 0x3a ∈ s ∧ s.head? ≠ some 0x5b
    · have hn : normalize s = [0x5b] ++ s ++ [0x5d] := by simp [normalize, hs, hc]
      rw [hn, normalize_brackets]
    · have hn : normalize s = s := by simp [normalize, hs, hc]
      rw [hn, hn]

/-- The hash of a normalised address is accepted and matches the address in all its forms, and no
other. -/
theorem hashHostname_matches (env : Env) (salt : Bytes) (hx : splitHostPort x = .ok (h, p)) :
    ∃ m, newHashedHost (hashHostname env (normalize x) salt) = .ok m ∧
      m.matchAddrs env [⟨h, p⟩] = true ∧
      (Function.Injective (env.hmacSHA1 salt) →
        ∀ a : Addr, normalize a.string ≠ normalize x → m.matchAddrs env [a] = false) := by
  refine ⟨_, newHashedHost_encodeHash _ _, ?_, fun hinj a ha => ?_⟩
  · simp [Matcher.matchAddrs, HashedHost.matchAddrs, normalize_string hx]
  · simpa [Matcher.matchAddrs, HashedHost.matchAddrs, hashHost] using hinj.ne ha

theorem hashHostname_matches_ipv6 :
    ∃ m, newHashedHost (hashHostname revokedEnv (normalize (ascii "[::1]:22")) [7]) = .ok m ∧
      m.matchAddrs revokedEnv [⟨ascii "::1", ascii "22"⟩] = true ∧
      m.matchAddrs revokedEnv [⟨ascii "::2", ascii "22"⟩] = false := by
  have hx : splitHostPort (ascii "[::1]:22") = .ok (ascii "::1", ascii "22") := rfl
  obtain ⟨m, hm, hin, hout⟩ := hashHostname_matches revokedEnv [7] hx
  exact ⟨m, hm, hin, hout (fun _ _ he => he) _ (by decide)⟩

end KnownHosts

end XCryptoSsh
