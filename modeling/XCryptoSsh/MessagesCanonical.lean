import XCryptoSsh.MessagesInjective

namespace XCryptoSsh
open Go Option
set_option autoImplicit true

theorem putUint32_bigEndianUint32 {b : Bytes} (h : b.length = 4) :
    putUint32 (bigEndianUint32 b) = b :=
  setBytes_inj h.symm (bigEndianUint32_putUint32 (bigEndianUint32_lt h))

theorem bigEndianUint64_lt {b : Bytes} (h : b.length = 8) : bigEndianUint64 b < 2 ^ 64 := by
  have hhigh := bigEndianUint32_lt (List.length_take_of_le (by omega : 4 ≤ b.length))
  have hlow := bigEndianUint32_lt (b := b.drop 4) (by rw [List.length_drop, h])
  rw [bigEndianUint64]
  omega

theorem putUint64_bigEndianUint64 {b : Bytes} (h : b.length = 8) :
    putUint64 (bigEndianUint64 b) = b := by
  have hhigh : (b.take 4).length = 4 := List.length_take_of_le (by omega)
  have hlow : (b.drop 4).length = 4 := by
    rw [List.length_drop, h]
  have hlt := bigEndianUint32_lt hlow
  rw [putUint64, bigEndianUint64, ← putUint32_u32 (_ + _)]
  have hdiv : (bigEndianUint32 (b.take 4) * 2 ^ 32 + bigEndianUint32 (b.drop 4)) / 2 ^ 32 =
      bigEndianUint32 (b.take 4) := by omega
  have hmod : u32 (bigEndianUint32 (b.take 4) * 2 ^ 32 + bigEndianUint32 (b.drop 4)) =
      bigEndianUint32 (b.drop 4) := by
    rw [u32]
    omega
  rw [hdiv, hmod, putUint32_bigEndianUint32 hhigh, putUint32_bigEndianUint32 hlow,
    List.take_append_drop]

theorem eq_of_parseString (h : parseString input = some (s, rest)) :
    encodeString s ++ rest = input := by
  have hlen := length_of_parseString h
  unfold parseString at h
  split at h
  · cases h
  rename_i hfour
  dsimp only at h
  split at h
  · cases h
  rename_i hfit
  obtain ⟨hs, hrest⟩ := Prod.mk.inj (some.inj h)
  have hle : u32 (input.drop 4).length ≤ (input.drop 4).length := Nat.mod_le _ _
  have htake : (input.take 4).length = 4 := List.length_take_of_le (by omega)
  have hslen : s.length = bigEndianUint32 (input.take 4) := by
    rw [← hs]
    exact List.length_take_of_le (by omega)
  rw [encodeString, hslen, putUint32_bigEndianUint32 htake, ← hs, ← hrest, List.append_assoc,
    List.take_append_drop, List.take_append_drop]

/-- The contents of an `mpint` of least length: no leading zero byte but before a set bit, no
leading `0xff` but before a clear one. -/
def Minimal : Bytes → Prop
  | [] => True
  | [x] => x ≠ 0
  | x :: y :: _ => (x = 0 → 128 ≤ y.toNat) ∧ (x = 0xff → y.toNat < 128)

instance : DecidablePred Minimal := fun b =>
  match b with
  | [] => inferInstanceAs (Decidable True)
  | [x] => inferInstanceAs (Decidable (x ≠ 0))
  | x :: y :: _ => inferInstanceAs (Decidable ((x = 0 → 128 ≤ y.toNat) ∧
      (x = 0xff → y.toNat < 128)))

def signedBytes (m : Nat) : Bytes := if bitLen m % 8 = 0 then 0 :: natBytes m else natBytes m

theorem not_eq_zero : ∀ x : UInt8, ~~~x = 0 ↔ x = 0xff := forall_byte (by decide +kernel)

theorem not_eq_ones : ∀ x : UInt8, ~~~x = 0xff ↔ x = 0 := forall_byte (by decide +kernel)

theorem xor_ones : ∀ x : UInt8, x ^^^ 0xff = ~~~x := forall_byte (by decide +kernel)

theorem intContents_neg_eq (h : n < 0) :
    intContents n = (signedBytes (-n - 1).toNat).map fun b => ~~~b := by
  rw [intContents_neg h]
  exact congrArg (fun f => (signedBytes (-n - 1).toNat).map f) (funext xor_ones)

theorem signedBytes_cases (m : Nat) :
    signedBytes m = [0] ∧ m = 0 ∨ (∃ y b, signedBytes m = 0 :: y :: b ∧ 128 ≤ y.toNat) ∨
      ∃ x b, signedBytes m = x :: b ∧ x ≠ 0 ∧ x.toNat < 128 := by
  by_cases hm : m = 0
  · subst m
    exact .inl ⟨rfl, rfl⟩
  cases hb : natBytes m with
  | nil => exact absurd hb (natBytes_ne_nil hm)
  | cons x b =>
    have hx := head_natBytes hb
    by_cases h8 : bitLen m % 8 = 0
    · exact .inr (.inl ⟨x, b, by rw [signedBytes, if_pos h8, hb], hx.mpr h8⟩)
    · refine .inr (.inr ⟨x, b, by rw [signedBytes, if_neg h8, hb], head_natBytes_ne_zero hb, ?_⟩)
      exact Nat.lt_of_not_le fun h => h8 (hx.mp h)

theorem minimal_intContents (n : Int) : Minimal (intContents n) := by
  rcases lt_trichotomy n 0 with h | rfl | h
  · rw [intContents_neg_eq h]
    rcases signedBytes_cases (-n - 1).toNat with ⟨hs, -⟩ | ⟨y, b, hs, hy⟩ | ⟨x, b, hs, hx, hlt⟩
    · rw [hs]
      decide
    · rw [hs]
      refine ⟨fun h0 => absurd h0 (by decide), fun _ => ?_⟩
      change (~~~y).toNat < 128
      have hnot := toNat_not y
      omega
    · rw [hs]
      have hnot := toNat_not x
      have hzero : ~~~x ≠ 0 := by
        intro h0
        rw [h0] at hnot
        change 0 = _ at hnot
        omega
      have hones : ~~~x ≠ 0xff := fun h0 => hx ((not_eq_ones x).mp h0)
      cases b with
      | nil => exact hzero
      | cons y b => exact ⟨fun h0 => absurd h0 hzero, fun h0 => absurd h0 hones⟩
  · trivial
  · have he : intContents n = signedBytes n.toNat := intContents_pos h
    rw [he]
    rcases signedBytes_cases n.toNat with ⟨-, h0⟩ | ⟨y, b, hs, hy⟩ | ⟨x, b, hs, hx, hlt⟩
    · omega
    · rw [hs]
      exact ⟨fun _ => hy, fun h0 => absurd h0 (by decide)⟩
    rw [hs]
    cases b with
    | nil => exact hx
    | cons y b =>
      refine ⟨fun h0 => absurd h0 hx, ?_⟩
      rintro rfl
      exact absurd hlt (by decide)

theorem signedBytes_setBytes (hlt : x.toNat < 128) (h : x = 0 → ∀ y ∈ b.head?, 128 ≤ y.toNat) :
    signedBytes (setBytes (x :: b)) = x :: b := by
  by_cases hx : x = 0
  · subst x
    cases b with
    | nil => rfl
    | cons y b =>
      have hy : 128 ≤ y.toNat := h rfl y rfl
      have hne : y ≠ 0 := by
        rintro rfl
        exact absurd hy (by decide)
      have hb := natBytes_setBytes hne (b := b)
      rw [setBytes_zero_cons, signedBytes, if_pos ((head_natBytes hb).mp hy), hb]
  · have hb := natBytes_setBytes hx (b := b)
    have h8 : ¬ bitLen (setBytes (x :: b)) % 8 = 0 := fun h8 =>
      absurd ((head_natBytes hb).mpr h8) (Nat.not_le.mpr hlt)
    rw [signedBytes, if_neg h8, hb]

theorem intContents_intOfContents_iff (c : Bytes) :
    intContents (intOfContents c) = c ↔ Minimal c := by
  constructor
  · intro h
    rw [← h]
    exact minimal_intContents _
  intro h
  cases c with
  | nil => rfl
  | cons x c =>
    by_cases hx : x.toNat < 128
    · rw [intOfContents_of_lt hx]
      have hhead : x = 0 → ∀ y ∈ c.head?, 128 ≤ y.toNat := by
        intro h0 y hy
        cases c with
        | nil => cases hy
        | cons z c =>
          cases hy
          exact h.1 h0
      have hpos : 0 < setBytes (x :: c) := by
        rw [Nat.pos_iff_ne_zero]
        intro h0
        have hs := signedBytes_setBytes hx hhead
        rw [h0] at hs
        obtain ⟨rfl, rfl⟩ := List.cons.inj hs
        exact h rfl
      have he : intContents (setBytes (x :: c) : Int) = signedBytes (setBytes (x :: c)) := by
        rw [intContents_pos (by omega), Int.toNat_natCast]
        rfl
      rw [he, signedBytes_setBytes hx hhead]
    · have hx' : 128 ≤ x.toNat := Nat.le_of_not_lt hx
      have hnot := toNat_not x
      rw [intOfContents_of_le hx', intContents_neg_eq (by omega)]
      have hm : (-(-((setBytes ((x :: c).map fun b => ~~~b) : Int) + 1)) - 1).toNat =
          setBytes ((x :: c).map fun b => ~~~b) := by omega
      rw [hm, List.map_cons, signedBytes_setBytes (by omega)]
      · rw [← List.map_cons (f := fun b : UInt8 => ~~~b), List.map_map]
        have hid : ((fun b : UInt8 => ~~~b) ∘ fun b => ~~~b) = id := by
          funext y
          exact UInt8.not_not
        rw [hid, List.map_id]
      · intro h0 y hy
        cases c with
        | nil => cases hy
        | cons z c =>
          cases hy
          have hz := h.2 ((not_eq_zero x).mp h0)
          have hnotz := toNat_not z
          change 128 ≤ (~~~z).toNat
          omega

/-- The data starts with the field as `Marshal` writes it: a `bool` is 0 or 1, an `mpint` is
minimal. -/
def Kind.Canonical : Kind → Bytes → Prop
  | .bool, data => ∀ x ∈ data.head?, x = 0 ∨ x = 1
  | .bigInt, data => ∀ c ∈ parseString data, Minimal c.1
  | _, _ => True

theorem encodeString_append_iff {c s : Bytes} (h : parseString data = some (s, r))
    (hc : c.length < 2 ^ 32) : encodeString c ++ after = data ↔ c = s ∧ after = r := by
  have hs := (length_of_parseString h).1
  rw [← eq_of_parseString h]
  constructor
  · intro he
    exact encodeString_append_inj hc hs he
  · rintro ⟨rfl, rfl⟩
    rfl

theorem append_take_drop_iff {b : Bytes} (h : b = data.take n) (hn : n ≤ data.length) :
    b ++ after = data ↔ after = data.drop n := by
  subst b
  constructor
  · intro he
    have hd := congrArg (List.drop n) he
    rwa [List.drop_left' (List.length_take_of_le hn)] at hd
  · rintro rfl
    exact List.take_append_drop n data

theorem boolByte_eq_iff : ∀ x : UInt8, (if (x != 0) = true then (1 : UInt8) else 0) = x ↔
    x = 0 ∨ x = 1 := forall_byte (by decide +kernel)

theorem Kind.encode_append_iff {k : Kind} {v : k.Val} {data r after : Bytes} (hk : k ≠ .rest)
    (h : k.unmarshal e data = .ok (v, r)) :
    k.encode v ++ after = data ↔ k.Canonical data ∧ after = r := by
  cases k with
  | rest => exact absurd rfl hk
  | bool =>
    cases data with
    | nil => cases h
    | cons x data =>
      cases h
      have hc : Kind.bool.Canonical (x :: r) ↔ x = 0 ∨ x = 1 :=
        ⟨fun h => h x rfl, fun h y hy => by cases hy; exact h⟩
      rw [hc, ← boolByte_eq_iff]
      exact List.cons_eq_cons
  | uint8 =>
    cases data with
    | nil => cases h
    | cons x data =>
      cases h
      exact List.cons_eq_cons.trans (and_congr_left' (iff_of_true rfl trivial))
  | array n =>
    rw [Kind.unmarshal] at h
    split at h
    · cases h
    rename_i hn
    cases h
    exact (append_take_drop_iff rfl (Nat.le_of_not_lt hn)).trans (iff_and_self.mpr fun _ => trivial)
  | uint32 =>
    rw [Kind.unmarshal, parseUint32] at h
    split at h
    · cases h
    rename_i hn
    cases h
    have hlen : (data.take 4).length = 4 := List.length_take_of_le (Nat.le_of_not_lt hn)
    have he : putUint32 (UInt32.ofNat (bigEndianUint32 (data.take 4))).toNat = data.take 4 := by
      rw [UInt32.toNat_ofNat', Nat.mod_eq_of_lt (bigEndianUint32_lt hlen),
        putUint32_bigEndianUint32 hlen]
    exact (append_take_drop_iff he (Nat.le_of_not_lt hn)).trans
      (iff_and_self.mpr fun _ => trivial)
  | uint64 =>
    rw [Kind.unmarshal, parseUint64] at h
    split at h
    · cases h
    rename_i hn
    cases h
    have hlen : (data.take 8).length = 8 := List.length_take_of_le (Nat.le_of_not_lt hn)
    have he : putUint64 (UInt64.ofNat (bigEndianUint64 (data.take 8))).toNat = data.take 8 := by
      rw [UInt64.toNat_ofNat', Nat.mod_eq_of_lt (bigEndianUint64_lt hlen),
        putUint64_bigEndianUint64 hlen]
    exact (append_take_drop_iff he (Nat.le_of_not_lt hn)).trans
      (iff_and_self.mpr fun _ => trivial)
  | string | bytes =>
    have hp := orErr_eq_ok.mp h
    exact (encodeString_append_iff hp (length_of_parseString hp).1).trans
      (and_congr_left' (iff_of_true rfl trivial))
  | names =>
    have hp := intercalate_parseNameList (orErr_eq_ok.mp h)
    exact (encodeString_append_iff hp (length_of_parseString hp).1).trans
      (and_congr_left' (iff_of_true rfl trivial))
  | bigInt =>
    obtain ⟨contents, hs, rfl⟩ := parseInt_eq_some (orErr_eq_ok.mp h)
    have hc : Kind.bigInt.Canonical data ↔ Minimal contents := by
      constructor
      · intro hm
        exact hm _ hs
      intro hm c hc
      rw [mem_def, hs] at hc
      cases hc
      exact hm
    rw [hc, ← intContents_intOfContents_iff]
    exact encodeString_append_iff hs
      ((length_intContents_le contents).trans_lt (length_of_parseString hs).1)

theorem Kind.unmarshal_err {k : Kind} {v : k.Val} (e' : Err)
    (h : k.unmarshal e data = .ok (v, r)) : k.unmarshal e' data = .ok (v, r) := by
  cases k with
  | string => exact orErr_eq_ok.mpr (orErr_eq_ok.mp h)
  | bool | uint8 =>
    cases data with
    | nil => cases h
    | cons x data => exact h
  | array | uint32 | uint64 | bytes | names | bigInt | rest => exact h

def Kind.after (k : Kind) (data : Bytes) : Bytes :=
  match k.unmarshal errShortRead data with
  | .ok (_, r) => r
  | .error _ => []

theorem Kind.after_eq {k : Kind} {v : k.Val} (h : k.unmarshal e data = .ok (v, r)) :
    k.after data = r := by
  rw [Kind.after, Kind.unmarshal_err errShortRead h]

theorem Kind.suffix_of_unmarshal {k : Kind} {v : k.Val} (h : k.unmarshal e data = .ok (v, r)) :
    r <:+ data := by
  have str {s : Bytes} (hs : parseString data = some (s, r)) : r <:+ data :=
    ⟨encodeString s, eq_of_parseString hs⟩
  cases k with
  | bool | uint8 =>
    cases data with
    | nil => cases h
    | cons x data =>
      cases h
      exact List.suffix_cons _ _
  | array n =>
    rw [Kind.unmarshal] at h
    split at h
    · cases h
    · cases h
      exact List.drop_suffix n data
  | uint32 =>
    rw [Kind.unmarshal, parseUint32] at h
    split at h
    · cases h
    · cases h
      exact List.drop_suffix 4 data
  | uint64 =>
    rw [Kind.unmarshal, parseUint64] at h
    split at h
    · cases h
    · cases h
      exact List.drop_suffix 8 data
  | string | bytes => exact str (orErr_eq_ok.mp h)
  | names => exact str (intercalate_parseNameList (orErr_eq_ok.mp h))
  | bigInt =>
    obtain ⟨contents, hs, rfl⟩ := parseInt_eq_some (orErr_eq_ok.mp h)
    exact str hs
  | rest =>
    cases h
    exact List.nil_suffix

def FieldsCanonical : List Field → Bytes → Prop
  | [], _ => True
  | f :: fs, data => f.kind.Canonical data ∧ FieldsCanonical fs (f.kind.after data)

theorem encodeFields_append_iff {fs : List Field} {vs : Vals fs} (hr : ∀ f ∈ fs, f.kind ≠ .rest)
    (h : unmarshalFields name fs data = .ok (vs, r)) :
    encodeFields fs vs ++ after = data ↔ FieldsCanonical fs data ∧ after = r := by
  induction fs generalizing data with
  | nil =>
    cases h
    exact iff_and_self.mpr fun _ => trivial
  | cons f fs ih =>
    obtain ⟨d, hv, hvs⟩ := unmarshalFields_cons_eq_ok.mp h
    have hd : f.kind.after data = d := Kind.after_eq hv
    obtain ⟨v, vs⟩ := vs
    rw [encodeFields, List.append_assoc, Kind.encode_append_iff (hr f List.mem_cons_self) hv,
      ih (fun g hg => hr g (.tail f hg)) hvs, FieldsCanonical, hd, and_assoc]

theorem Kind.short_of_unmarshal {k : Kind} {v : k.Val} (h : k.unmarshal e data = .ok (v, r)) :
    k.Short v := by
  cases k with
  | bool | array | uint8 | uint32 | uint64 | rest => exact nofun
  | string | bytes =>
    exact Kind.short_of_contents rfl (length_of_parseString (orErr_eq_ok.mp h)).1
  | names =>
    exact Kind.short_of_contents rfl
      (length_of_parseString (intercalate_parseNameList (orErr_eq_ok.mp h))).1
  | bigInt =>
    obtain ⟨contents, hs, rfl⟩ := parseInt_eq_some (orErr_eq_ok.mp h)
    exact Kind.short_of_contents rfl
      ((length_intContents_le contents).trans_lt (length_of_parseString hs).1)

theorem fieldsShort_of_unmarshal {fs : List Field} {vs : Vals fs}
    (h : unmarshalFields name fs data = .ok (vs, r)) : FieldsShort fs vs := by
  induction fs generalizing data with
  | nil => trivial
  | cons f fs ih =>
    obtain ⟨d, hv, hvs⟩ := unmarshalFields_cons_eq_ok.mp h
    exact ⟨Kind.short_of_unmarshal hv, ih hvs⟩

/-- The number that the bytes stand for in two's complement, the first byte being the highest. -/
def twosComplement (b : Bytes) : Int :=
  setBytes b - if 128 ≤ (b.headD 0).toNat then 256 ^ b.length else 0

theorem setBytes_map_not (b : Bytes) :
    setBytes (b.map fun x => ~~~x) + setBytes b + 1 = 256 ^ b.length := by
  induction b with
  | nil => rfl
  | cons x b ih =>
    have hx := toNat_not x
    have hlt := x.toNat_lt
    have hsum : ((~~~x).toNat + x.toNat) * 256 ^ b.length = 255 * 256 ^ b.length := by
      rw [show (~~~x).toNat + x.toNat = 255 by omega]
    rw [List.map_cons, setBytes_cons, setBytes_cons, List.length_map, List.length_cons, pow_succ]
    linarith

theorem intOfContents_eq (b : Bytes) : intOfContents b = twosComplement b := by
  cases b with
  | nil => rfl
  | cons x b =>
    have hnot := setBytes_map_not (x :: b)
    change _ = _ - if 128 ≤ x.toNat then _ else _
    by_cases hx : x.toNat < 128
    · rw [intOfContents_of_lt hx, if_neg (Nat.not_le.mpr hx), sub_zero]
    · rw [intOfContents_of_le (Nat.not_lt.mp hx), if_pos (Nat.not_lt.mp hx)]
      zify at hnot
      linarith

theorem twosComplement_inj (hl : b.length = b'.length) (h : twosComplement b = twosComplement b') :
    b = b' := by
  have hb := setBytes_lt b
  have hb' := setBytes_lt b'
  apply setBytes_inj hl
  zify at hb hb' ⊢
  rw [← hl] at hb'
  rw [twosComplement, twosComplement, ← hl] at h
  split at h <;> split at h <;> omega

/-- The contents are the only form of the number that is not longer. They are read back unless the
rest is so long that the length of both, cut to 32 bits, is too small. -/
theorem marshalInt_canonical_iff (n : Int) (hn : intLength n < 2 ^ 31 + 4) (dst rest : Bytes)
    (hd : intLength n ≤ dst.length) :
    (∃ c, marshalInt dst n = some (putUint32 c.length ++ c ++ dst.drop (intLength n)) ∧
      4 + c.length = intLength n ∧ twosComplement c = n ∧
      (∀ c', twosComplement c' = n → c' = c ∨ c.length < c'.length) ∧
      parseInt (putUint32 c.length ++ c ++ rest) = some (n, rest)) ↔
    intLength n - 4 ≤ u32 (intLength n - 4 + rest.length) := by
  have hlen := length_intContents n
  have hval : twosComplement (intContents n) = n := by
    rw [← intOfContents_eq, intOfContents_intContents]
  have hc : intLength n - 4 = (intContents n).length := by omega
  have hparse := parseString_encodeString (intContents n) rest
  rw [u32_of_lt (by omega : (intContents n).length < 2 ^ 32)] at hparse
  rw [hc]
  constructor
  · rintro ⟨c, hm, hl, -, -, hp⟩
    rw [marshalInt_of_le hd, some.injEq] at hm
    obtain rfl := (List.append_inj (List.append_cancel_right hm) rfl).2
    by_contra hlt
    change parseInt (encodeString (intContents n) ++ rest) = _ at hp
    rw [parseInt, hparse, if_pos (Nat.not_le.mp hlt)] at hp
    cases hp
  · intro hfit
    refine ⟨intContents n, marshalInt_of_le hd, hlen, hval, ?_, parseInt_of_fits ⟨by omega, hfit⟩⟩
    intro c' hc'
    have hle := length_intContents_le c'
    rw [intOfContents_eq, hc'] at hle
    obtain hlt | heq := Nat.lt_or_eq_of_le hle
    · exact .inr hlt
    · exact .inl (twosComplement_inj heq.symm (hc'.trans hval.symm))

/-- The length of the one byte and of 2 ^ 32 - 1 more is taken for 0. -/
theorem parseInt_long_rest : ∃ b, marshalInt (List.replicate 5 0) 1 = some b ∧
    parseInt (b ++ List.replicate (2 ^ 32 - 1) 0) = none := by
  refine ⟨encodeString (intContents 1), marshalInt_eq 1, ?_⟩
  rw [parseInt, parseString_encodeString, List.length_replicate, if_pos (by decide)]

theorem marshalInt_canonical_one : ∃ c, marshalInt [7, 7, 7, 7, 7] 1 =
    some (putUint32 c.length ++ c ++ []) ∧ c.length = 1 := by
  have hone : intLength 1 = 5 := by simp [intLength, bitLen]
  obtain ⟨c, hm, hl, -⟩ := (marshalInt_canonical_iff 1 (by rw [hone]; decide) [7, 7, 7, 7, 7] [9]
    (by rw [hone]; decide)).mpr (by rw [hone]; decide)
  rw [hone] at hm hl
  exact ⟨c, hm, by omega⟩

end XCryptoSsh
