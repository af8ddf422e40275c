import Mathlib.Computability.Language
import XCryptoSsh.HostKeyLookup

namespace XCryptoSsh
open Go List
set_option autoImplicit true

namespace KnownHosts

/-- What one byte of a pattern stands for: `*` for any string, `?` for any byte, and every other
byte for itself. -/
def wildcard (p : UInt8) : Language UInt8 := {w | p = 0x2a ∨ ∃ c, w = [c] ∧ (p = 0x3f ∨ p = c)}

def language (pat : Bytes) : Language UInt8 := (pat.map wildcard).prod

/-- A last `*` of the pattern takes at least one byte. -/
def sharpen : (pat : Bytes) → Bytes
  | [] => []
  | [p] => if p = 0x2a then [0x3f, 0x2a] else [p]
  | p :: q :: pat => p :: sharpen (q :: pat)

theorem mem_language_cons : str ∈ language (p :: pat) ↔
    ∃ w ∈ wildcard p, ∃ s ∈ language pat, w ++ s = str := by
  rw [language, map_cons, prod_cons]
  exact Language.mem_mul

theorem mem_language_star : str ∈ language (0x2a :: pat) ↔
    ∃ w, ∃ s ∈ language pat, w ++ s = str := by
  rw [mem_language_cons]
  exact ⟨fun ⟨w, _, h⟩ => ⟨w, h⟩, fun ⟨w, h⟩ => ⟨w, .inl rfl, h⟩⟩

theorem mem_language_of_ne (hp : p ≠ 0x2a) : str ∈ language (p :: pat) ↔
    ∃ c s, str = c :: s ∧ (p = 0x3f ∨ p = c) ∧ s ∈ language pat := by
  rw [mem_language_cons]
  constructor
  · rintro ⟨w, h | ⟨c, rfl, hc⟩, s, hs, rfl⟩
    · exact absurd h hp
    · exact ⟨c, s, rfl, hc, hs⟩
  · rintro ⟨c, s, rfl, hc, hs⟩
    exact ⟨[c], .inr ⟨c, rfl, hc⟩, s, hs, rfl⟩

theorem mem_language_nil : str ∈ language [] ↔ str = [] := Language.mem_one str

theorem ne_nil_of_mem_sharpen (h : str ∈ language (sharpen (p :: pat))) : str ≠ [] := by
  induction pat generalizing p str with
  | nil =>
    rw [sharpen] at h
    split at h
    · obtain ⟨c, s, rfl, -⟩ := (mem_language_of_ne (by decide)).mp h
      exact nofun
    rename_i hp
    obtain ⟨c, s, rfl, -⟩ := (mem_language_of_ne hp).mp h
    exact nofun
  | cons q pat ih =>
    obtain ⟨w, -, s, hs, rfl⟩ := mem_language_cons.mp h
    exact fun hn => ih hs (append_eq_nil_iff.mp hn).2

theorem wildcardMatch_iff_sharpen (pat str : Bytes) :
    wildcardMatch pat str = true ↔ str ∈ language (sharpen pat) := by
  induction pat generalizing str with
  | nil => rw [wildcardMatch, List.isEmpty_iff, sharpen, mem_language_nil]
  | cons p pat ih =>
    cases str with
    | nil => exact iff_of_false nofun fun h => ne_nil_of_mem_sharpen h rfl
    | cons c str =>
      rw [wildcardMatch]
      by_cases hp : p = 0x2a
      · subst hp
        rw [if_pos rfl]
        cases pat with
        | nil =>
          refine iff_of_true rfl ((mem_language_of_ne (by decide)).mpr ⟨c, str, rfl, .inl rfl, ?_⟩)
          exact mem_language_star.mpr ⟨str, [], mem_language_nil.mpr rfl, append_nil str⟩
        | cons q pat =>
          rw [if_neg (cons_ne_nil q pat), any_eq_true]
          simp only [ih, mem_range]
          change _ ↔ _ ∈ language (0x2a :: sharpen (q :: pat))
          rw [mem_language_star]
          constructor
          · rintro ⟨j, -, hj⟩
            exact ⟨(c :: str).take j, _, hj, take_append_drop j _⟩
          rintro ⟨w, s, hs, he⟩
          -- the rest of the pattern takes a byte, so the index of the loop is in range
          have hpos := length_pos_of_ne_nil (ne_nil_of_mem_sharpen hs)
          refine ⟨w.length, ?_, ?_⟩
          · rw [← he, length_append]
            omega
          · rwa [← he, drop_left]
      · have hs : sharpen (p :: pat) = p :: sharpen pat := by
          cases pat with
          | nil => exact if_neg hp
          | cons q pat => rfl
        rw [if_neg hp, hs, mem_language_of_ne hp]
        by_cases hc : p = 0x3f ∨ p = c
        · rw [if_pos hc, ih]
          refine ⟨fun h => ⟨c, str, rfl, hc, h⟩, ?_⟩
          rintro ⟨c', s, he, -, h⟩
          cases he
          exact h
        · rw [if_neg hc]
          refine iff_of_false nofun ?_
          rintro ⟨c', s, he, hc', -⟩
          cases he
          exact hc hc'

theorem mem_of_mem_sharpen (h : str ∈ language (sharpen pat)) : str ∈ language pat := by
  induction pat generalizing str with
  | nil => exact h
  | cons p pat ih =>
    cases pat with
    | nil =>
      rw [sharpen] at h
      split at h
      · rename_i hp
        subst hp
        exact mem_language_star.mpr ⟨str, [], mem_language_nil.mpr rfl, append_nil str⟩
      · exact h
    | cons q pat =>
      obtain ⟨w, hw, s, hs, rfl⟩ := mem_language_cons.mp h
      exact mem_language_cons.mpr ⟨w, hw, s, ih hs, rfl⟩

/-- The matcher is right unless the string is in the language of the pattern only because a last `*`
stands for nothing. -/
theorem wildcardMatch_iff (pat str : Bytes) : (wildcardMatch pat str = true ↔ str ∈ language pat) ↔
    (str ∈ language pat → str ∈ language (sharpen pat)) := by
  rw [wildcardMatch_iff_sharpen]
  exact ⟨Iff.mpr, fun h => ⟨mem_of_mem_sharpen, h⟩⟩

theorem wildcardMatch_refuses_host :
    wildcardMatch (ascii "host*") (ascii "host") = false ∧
      ascii "host" ∈ language (ascii "host*") := by
  refine ⟨by decide, ?_⟩
  have hstar : [] ∈ language [0x2a] :=
    mem_language_star.mpr ⟨[], [], mem_language_nil.mpr rfl, rfl⟩
  have hlit (c : UInt8) (hc : c ≠ 0x2a) {pat s : Bytes} (h : s ∈ language pat) :
      c :: s ∈ language (c :: pat) := (mem_language_of_ne hc).mpr ⟨c, s, rfl, .inr rfl, h⟩
  exact hlit _ (by decide) (hlit _ (by decide) (hlit _ (by decide) (hlit _ (by decide) hstar)))

theorem matchLoop_iff (matched : Bool) (xs : List (HostPattern × Addr)) :
    matchLoop matched xs = true ↔
      (matched = true ∨ ∃ x ∈ xs, x.1.negate = false ∧ x.1.matchAddr x.2 = true) ∧
        ∀ x ∈ xs, x.1.negate = true → x.1.matchAddr x.2 = false := by
  induction xs generalizing matched with
  | nil => simp [matchLoop]
  | cons x xs ih =>
    obtain ⟨p, a⟩ := x
    rw [matchLoop]
    cases hm : p.matchAddr a with
    | false => simp [ih, hm]
    | true => cases hn : p.negate <;> simp [ih, hm, hn]

/-- Some pattern accepts an address and no negated one matches any, in any order; and added lines
change no verdict on a key of a type that a line matches already. -/
theorem verdicts_stable :
    (∀ ps addrs, matchPatterns ps addrs = true ↔
      (∃ p ∈ ps, p.negate = false ∧ ∃ a ∈ addrs, p.matchAddr a = true) ∧
        ∀ p ∈ ps, p.negate = true → ∀ a ∈ addrs, p.matchAddr a = false) ∧
    ∀ (env : Env) (db : HostKeyDB) (more : List KeyDBLine) (addrs : List Addr) (key : PublicKey),
      (db.checkAddrs env addrs key = .ok () →
        HostKeyDB.checkAddrs env { db with lines := db.lines ++ more } addrs key = .ok ()) ∧
      ∀ earlier l later, db.lines = earlier ++ l :: later →
        l.matcher.matchAddrs env addrs = true → l.knownKey.key.type = key.type →
        keyEq env.elliptic l.knownKey.key key = false →
        (∀ x ∈ earlier, x.matcher.matchAddrs env addrs = true →
          keyEq env.elliptic x.knownKey.key key = false) →
        HostKeyDB.checkAddrs env { db with lines := db.lines ++ more } addrs key ≠ .ok () := by
  refine ⟨fun ps addrs => ?_, fun env db more addrs key => ⟨fun h => ?_, ?_⟩⟩
  · have hmem (p : HostPattern) (a : Addr) :
        (p, a) ∈ ps.flatMap (fun p => addrs.map fun a => (p, a)) ↔ p ∈ ps ∧ a ∈ addrs := by simp
    rw [matchPatterns, matchLoop_iff]
    simp only [Bool.false_eq_true, false_or, Prod.exists, Prod.forall, hmem]
    exact and_congr ⟨fun ⟨p, a, ⟨hp, ha⟩, hn, hm⟩ => ⟨p, hp, hn, a, ha, hm⟩,
      fun ⟨p, hp, hn, a, ha, hm⟩ => ⟨p, a, ⟨hp, ha⟩, hn, hm⟩⟩
      ⟨fun h p hp hn a ha => h p a ⟨hp, ha⟩ hn, fun h p a hpa hn => h p hpa.1 hn a hpa.2⟩
  · obtain ⟨l, hl, hk⟩ := HostKeyDB.checkAddrs_eq_ok.mp h
    refine HostKeyDB.checkAddrs_eq_ok.mpr ⟨l, ?_, hk⟩
    rw [HostKeyDB.firstLine, find?_append]
    exact congrArg (Option.or · _) hl
  · intro earlier l later he hm ht hk hall h
    obtain ⟨x, hx, hkx⟩ := HostKeyDB.checkAddrs_eq_ok.mp h
    -- the line found is `l`, or one before it
    obtain ⟨-, hmx, -⟩ := HostKeyDB.firstLine_spec hx
    rw [HostKeyDB.firstLine, he, append_assoc, find?_append, Option.or_eq_some_iff] at hx
    obtain hx | ⟨-, hx⟩ := hx
    · rw [hall x (mem_of_find?_eq_some hx) hmx] at hkx
      cases hkx
    rw [cons_append, find?_cons_of_pos (by simp [hm, ht])] at hx
    cases hx
    cases hk.symm.trans hkx

end KnownHosts
end XCryptoSsh
