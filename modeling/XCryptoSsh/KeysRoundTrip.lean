import XCryptoSsh.Keys

namespace XCryptoSsh
open Go List Option StructType
set_option autoImplicit true

theorem KeyAlgo.ofName_name (a : KeyAlgo) : ofName (ascii a.name) = some a := by
  cases a <;> decide +kernel

theorem KeyAlgo.ofCertName_certName (a : KeyAlgo) : ofCertName (ascii a.certName) = some a := by
  cases a <;> decide +kernel

theorem KeyAlgo.ofName_certName (a : KeyAlgo) : ofName (ascii a.certName) = none := by
  cases a <;> decide +kernel

theorem fieldsAdmit_of_length_lt {fs : List Field} {vs : Vals fs}
    (hn : ∀ f ∈ fs, f.kind ≠ .names) (h : (encodeFields fs vs).length < 2 ^ 32) :
    FieldsAdmit fs vs := by
  induction fs with
  | nil => trivial
  | cons f fs ih =>
    obtain ⟨v, vs⟩ := vs
    obtain ⟨name, kind⟩ := f
    have hk := hn ⟨name, kind⟩ mem_cons_self
    rw [encodeFields, length_append] at h
    refine ⟨?_, ih (fun f hf => hn f (mem_cons_of_mem _ hf)) (by omega)⟩
    have str {s : Bytes} (hs : kind.encode v = encodeString s) : s.length < 2 ^ 32 := by
      rw [hs, length_encodeString] at h
      omega
    cases kind with
    | names => exact absurd rfl hk
    | string | bytes => exact str rfl
    | bool | array | uint8 | uint32 | uint64 | bigInt | rest => trivial

theorem unmarshal_encodeFields {t : StructType} {m : Vals t.fields} (ht : t.tags = [])
    (hn : ∀ f ∈ t.fields, f.kind ≠ .names) (hne : encodeFields t.fields m ≠ [])
    (hl : (encodeFields t.fields m).length < 2 ^ 32) :
    unmarshal t (encodeFields t.fields m) = .ok m := by
  have he : t.encode m = encodeFields t.fields m := by
    rw [encode, ht]
    rfl
  have ha : t.Admits m := ⟨he ▸ hne, fieldsAdmit_of_length_lt hn hl⟩
  rw [← he]
  refine (unmarshal_encode_iff ha).mpr ⟨?_, fieldsFit_of_length_lt hl⟩
  rw [ht]
  simp

theorem unmarshal_encode_of_length_lt {t : StructType} {m : Vals t.fields} (ht : t.tags = x :: xs)
    (hx : x ≠ 0) (hn : ∀ f ∈ t.fields, f.kind ≠ .names) (hl : (t.encode m).length < 2 ^ 32) :
    unmarshal t (t.encode m) = .ok m := by
  have he : t.encode m = x :: encodeFields t.fields m := by
    rw [encode, ht]
    rfl
  have hl' : (encodeFields t.fields m).length < 2 ^ 32 := by
    rw [he, length_cons] at hl
    omega
  have ha : t.Admits m := ⟨he ▸ cons_ne_nil _ _, fieldsAdmit_of_length_lt hn hl'⟩
  refine (unmarshal_encode_iff ha).mpr ⟨?_, fieldsFit_of_length_lt hl'⟩
  rw [ht]
  exact fun h => hx (some.inj h)

theorem encodeString_append_ne (s b : Bytes) : encodeString s ++ b ≠ [] :=
  cons_ne_nil _ _

def RawKey.Valid (E : Elliptic) : RawKey → Prop
  | .rsa e _ => 3 ≤ e ∧ e < 2 ^ 24 ∧ e % 2 = 1
  | .dsa .. => True
  | .ecdsa curve x y => E.onCurve curve x y
  | .ed25519 _ => True

def RawKey.fields (E : Elliptic) : RawKey → Bytes
  | .rsa e n => encodeString (intContents e) ++ encodeString (intContents n)
  | .dsa p q g y => encodeString (intContents p) ++ (encodeString (intContents q) ++
      (encodeString (intContents g) ++ encodeString (intContents y)))
  | .ecdsa curve x y => encodeString (ascii curve.nistID) ++ encodeString (E.marshal curve x y)
  | .ed25519 key => encodeString key

theorem RawKey.marshal_eq (E : Elliptic) (k : RawKey) :
    k.marshal E = some (encodeString (ascii k.algo.name) ++ k.fields E) := by
  cases k with
  | rsa e n =>
    refine (StructType.marshal_eq rsaWire _).trans (congrArg some ?_)
    simp [StructType.encode, rsaWire, wireStruct, encodeFields, Kind.encode, fields, algo]
  | dsa p q g y =>
    refine (StructType.marshal_eq dsaWire _).trans (congrArg some ?_)
    simp [StructType.encode, dsaWire, wireStruct, encodeFields, Kind.encode, fields, algo]
  | ecdsa curve x y =>
    refine (StructType.marshal_eq ecdsaWire _).trans (congrArg some ?_)
    simp [StructType.encode, ecdsaWire, wireStruct, encodeFields, Kind.encode, fields, algo]
  | ed25519 key =>
    refine (StructType.marshal_eq ed25519Wire _).trans (congrArg some ?_)
    simp [StructType.encode, ed25519Wire, wireStruct, encodeFields, Kind.encode, fields, algo]

theorem checkExponent_eq_ok (h₁ : 3 ≤ e) (h₂ : e < 2 ^ 24) (h₃ : e % 2 = 1) :
    checkExponent e = .ok () := by
  have hsize : ¬ bitLen e.natAbs > 24 := by
    have hlt : e.natAbs < 2 ^ 24 := by omega
    exact Nat.not_lt.mpr (Nat.size_le.mpr hlt)
  have hodd : ¬ (e < 3 ∨ e % 2 = 0) := by omega
  rw [checkExponent, if_neg hsize, if_neg hodd]

theorem Curve.ofID_nistID (c : Curve) : ofID (ascii c.nistID) = some c := by
  cases c <;> decide +kernel

theorem parsePlainKey_fields {k : RawKey} (rest : Bytes) (hv : k.Valid E)
    (hl : (k.fields E ++ rest).length < 2 ^ 32) :
    parsePlainKey E (k.fields E ++ rest) k.algo = .ok (k, rest) := by
  cases k with
  | rsa e n =>
    have he : encodeFields rsaFields.fields (e, n, rest, ()) = (RawKey.rsa e n).fields E ++
      rest := by
      simp [rsaFields, wireStruct, encodeFields, Kind.encode, RawKey.fields]
    have hu := unmarshal_encodeFields (t := rsaFields) (m := (e, n, rest, ())) rfl
      (by simp [rsaFields, wireStruct]) (encodeString_append_ne _ _) (he ▸ hl)
    rw [he] at hu
    obtain ⟨h₁, h₂, h₃⟩ := hv
    change parseRSA _ = _
    rw [parseRSA, hu]
    change (checkExponent e >>= fun _ => _) = _
    rw [checkExponent_eq_ok h₁ h₂ h₃]
    rfl
  | dsa p q g y =>
    have he : encodeFields dsaFields.fields (p, q, g, y, rest, ()) =
        (RawKey.dsa p q g y).fields E ++ rest := by
      simp [dsaFields, wireStruct, encodeFields, Kind.encode, RawKey.fields]
    have hu := unmarshal_encodeFields (t := dsaFields) (m := (p, q, g, y, rest, ())) rfl
      (by simp [dsaFields, wireStruct]) (encodeString_append_ne _ _) (he ▸ hl)
    rw [he] at hu
    change parseDSA _ = _
    rw [parseDSA, hu]
    rfl
  | ecdsa curve x y =>
    have he : encodeFields ecdsaFields.fields (ascii curve.nistID, E.marshal curve x y, rest, ()) =
        (RawKey.ecdsa curve x y).fields E ++ rest := by
      simp [ecdsaFields, wireStruct, encodeFields, Kind.encode, RawKey.fields]
    have hu := unmarshal_encodeFields (t := ecdsaFields)
      (m := (ascii curve.nistID, E.marshal curve x y, rest, ())) rfl
      (by simp [ecdsaFields, wireStruct]) (encodeString_append_ne _ _) (he ▸ hl)
    rw [he] at hu
    have hp : parseECDSA E ((RawKey.ecdsa curve x y).fields E ++ rest) =
        .ok (.ecdsa curve x y, rest) := by
      rw [parseECDSA, hu]
      simp only [bind, Except.bind, Curve.ofID_nistID, E.unmarshal_marshal hv]
      rfl
    cases curve with
    | p256 | p384 | p521 => exact hp
  | ed25519 key =>
    have he : encodeFields ed25519Fields.fields (key, rest, ()) =
        (RawKey.ed25519 key).fields E ++ rest := by
      simp [ed25519Fields, wireStruct, encodeFields, Kind.encode, RawKey.fields]
    have hu := unmarshal_encodeFields (t := ed25519Fields) (m := (key, rest, ())) rfl
      (by simp [ed25519Fields, wireStruct]) (encodeString_append_ne _ _) (he ▸ hl)
    rw [he] at hu
    change parseED25519 _ = _
    rw [parseED25519, hu]
    rfl

theorem foldlM_append {f : α → Option Bytes} {enc : α → Bytes} (h : ∀ a, f a = some (enc a))
    (as : List α) (out : Bytes) :
    as.foldlM (fun out a => do
      let s ← f a
      pure (out ++ s)) out = some (out ++ as.flatMap enc) := by
  induction as generalizing out with
  | nil => simp
  | cons a as ih =>
    rw [foldlM_cons, h a, flatMap_cons, ← append_assoc]
    exact ih (out ++ enc a)

theorem marshalStringList_eq (names : List Bytes) :
    marshalStringList names = some (names.flatMap encodeString) := by
  have hname (name : Bytes) : marshal nameWire (name, ()) = some (encodeString name) := by
    refine (marshal_eq nameWire _).trans (congrArg some ?_)
    simp [encode, nameWire, wireStruct, encodeFields, Kind.encode]
  exact foldlM_append hname names []

theorem parsePrincipals_flatMap (names : List Bytes)
    (hl : (names.flatMap encodeString).length < 2 ^ 32) :
    parsePrincipals (names.flatMap encodeString) = .ok names := by
  induction names with
  | nil =>
    rw [parsePrincipals]
    rfl
  | cons name names ih =>
    rw [flatMap_cons, length_append, length_encodeString] at hl
    have hp : parseString (encodeString name ++ names.flatMap encodeString) =
        some (name, names.flatMap encodeString) :=
      parseString_of_fits (stringFits_of_length_lt (by omega))
    rw [flatMap_cons, parsePrincipals, if_neg (encodeString_append_ne _ _)]
    split <;> rename_i h <;> rw [hp] at h <;> cases h
    rw [ih (by omega)]
    rfl

def encodeOptionValue (value : Bytes) : Bytes :=
  if value.length > 0 then encodeString value else []

def encodeTuple (tups : StringMap) (key : Bytes) : Bytes :=
  encodeString key ++ encodeString (encodeOptionValue ((tups.lookup key).getD []))

def encodeTuples (tups : StringMap) : Bytes := (tups.keys.sort StringLe).flatMap (encodeTuple tups)

theorem marshalOptionValue_eq (value : Bytes) :
    marshalOptionValue value = some (encodeOptionValue value) := by
  unfold marshalOptionValue encodeOptionValue
  split
  · refine (marshal_eq optionsTupleValue _).trans (congrArg some ?_)
    simp [encode, optionsTupleValue, encodeFields, Kind.encode]
  · rfl

theorem marshalTuple_eq (tups : StringMap) (key : Bytes) :
    marshalTuple tups key = some (encodeTuple tups key) := by
  rw [marshalTuple, marshalOptionValue_eq, bind_eq_bind, bind_some]
  refine (marshal_eq optionsTuple _).trans (congrArg some ?_)
  simp [encode, optionsTuple, encodeFields, Kind.encode, encodeTuple]

theorem marshalTuples_eq (tups : StringMap) : marshalTuples tups = some (encodeTuples tups) :=
  foldlM_append (marshalTuple_eq tups) _ []

theorem parseOptionValue_encode {value : Bytes} (hl : (encodeOptionValue value).length < 2 ^ 32) :
    parseOptionValue (encodeOptionValue value) = .ok value := by
  by_cases hv : value.length > 0
  · have he : encodeOptionValue value = encodeString value ++ [] := by
      rw [encodeOptionValue, if_pos hv, append_nil]
    have hlen : (encodeString value ++ []).length > 0 := by
      rw [append_nil, length_encodeString]
      omega
    rw [he, append_nil, length_encodeString] at hl
    have hp : parseString (encodeString value ++ []) = some (value, []) :=
      parseString_of_fits (stringFits_of_length_lt (by simp; omega))
    rw [he, parseOptionValue, if_pos hlen, hp]
    rfl
  · have h0 : value = [] := length_eq_zero_iff.mp (by omega)
    subst value
    rfl

theorem parseTuplesFrom_flatMap {tups acc : StringMap} {keys : List Bytes} {last : Option Bytes}
    (hlast : ∀ l ∈ last, ∀ k ∈ keys, ¬ StringLe k l)
    (hkeys : keys.Pairwise fun k k' => ¬ StringLe k' k)
    (hl : (keys.flatMap (encodeTuple tups)).length < 2 ^ 32) :
    parseTuplesFrom last acc (keys.flatMap (encodeTuple tups)) =
      .ok (keys.foldl (fun m k => m.insert k ((tups.lookup k).getD [])) acc) := by
  induction keys generalizing last acc with
  | nil =>
    rw [parseTuplesFrom]
    rfl
  | cons key keys ih =>
    obtain ⟨hkey, hkeys⟩ := pairwise_cons.mp hkeys
    set value := (tups.lookup key).getD [] with hvalue
    set after := keys.flatMap (encodeTuple tups) with hafter
    have hsplit : (key :: keys).flatMap (encodeTuple tups) =
        encodeString key ++ (encodeString (encodeOptionValue value) ++ after) := by
      rw [flatMap_cons, encodeTuple, append_assoc]
    rw [hsplit, length_append, length_append, length_encodeString,
      length_encodeString] at hl
    have hp : parseString (encodeString key ++ (encodeString (encodeOptionValue value) ++ after)) =
        some (key, encodeString (encodeOptionValue value) ++ after) := by
      apply parseString_of_fits
      apply stringFits_of_length_lt
      rw [length_append, length_encodeString]
      omega
    have hp' : parseString (encodeString (encodeOptionValue value) ++ after) =
        some (encodeOptionValue value, after) :=
      parseString_of_fits (stringFits_of_length_lt (by omega))
    have horder : ¬ (last.any fun l => decide (StringLe key l)) = true := by
      intro h
      cases last with
      | none => cases h
      | some l => exact hlast l rfl key mem_cons_self (of_decide_eq_true h)
    rw [hsplit, parseTuplesFrom, if_neg (encodeString_append_ne _ _)]
    split <;> rename_i h <;> rw [hp] at h <;> cases h
    rw [if_neg horder]
    split <;> rename_i h <;> rw [hp'] at h <;> cases h
    rw [parseOptionValue_encode (by omega)]
    refine ih ?_ hkeys (by omega)
    intro l hl k hk
    cases hl
    exact hkey k hk

theorem lookup_foldl_insert (val : Bytes → Bytes) (keys : List Bytes) (acc : StringMap)
    (k : Bytes) : (keys.foldl (fun m k => m.insert k (val k)) acc).lookup k =
      if k ∈ keys then some (val k) else acc.lookup k := by
  induction keys generalizing acc with
  | nil => simp
  | cons key keys ih =>
    rw [foldl_cons, ih]
    by_cases hk : k ∈ keys
    · rw [if_pos hk, if_pos (mem_cons_of_mem _ hk)]
    rw [if_neg hk]
    by_cases he : k = key
    · subst key
      rw [Finmap.lookup_insert, if_pos mem_cons_self]
    · rw [Finmap.lookup_insert_of_ne _ he, if_neg (by simp [he, hk])]

theorem parseTuples_encodeTuples (tups : StringMap) (hl : (encodeTuples tups).length < 2 ^ 32) :
    parseTuples (encodeTuples tups) = .ok tups := by
  have hstrict : (tups.keys.sort StringLe).Pairwise fun k k' => ¬ StringLe k' k := by
    have hsorted := Finset.pairwise_sort tups.keys StringLe
    have hnodup := Finset.sort_nodup tups.keys StringLe
    refine (hsorted.and hnodup).imp ?_
    rintro k k' ⟨hle, hne⟩ hle'
    exact hne (antisymm hle hle')
  rw [parseTuples, encodeTuples, parseTuplesFrom_flatMap (by simp) hstrict hl]
  refine congrArg Except.ok (Finmap.ext_lookup fun k => ?_)
  rw [lookup_foldl_insert]
  by_cases hk : k ∈ tups
  · obtain ⟨v, hv⟩ := Finmap.mem_iff.mp hk
    rw [if_pos ((Finset.mem_sort StringLe).mpr (Finmap.mem_keys.mpr hk)), hv]
    rfl
  · have hk' : k ∉ tups.keys.sort StringLe := fun h =>
      hk (Finmap.mem_keys.mp ((Finset.mem_sort StringLe).mp h))
    rw [if_neg hk', Finmap.lookup_empty, Finmap.lookup_eq_none.mpr hk]

theorem parseSignatureBody_encode {sig : Signature}
    (hl : (encodeString sig.format ++ encodeString sig.blob).length < 2 ^ 32) :
    parseSignatureBody (encodeString sig.format ++ encodeString sig.blob) = some (sig, []) := by
  rw [length_append, length_encodeString, length_encodeString] at hl
  have hp : parseString (encodeString sig.format ++ encodeString sig.blob) =
      some (sig.format, encodeString sig.blob) :=
    parseString_of_fits (stringFits_of_length_lt (by rw [length_encodeString]; omega))
  have hp' : parseString (encodeString sig.blob) = some (sig.blob, []) := by
    have h : parseString (encodeString sig.blob ++ []) = some (sig.blob, []) :=
      parseString_of_fits (stringFits_of_length_lt (by rw [length_nil]; omega))
    rwa [append_nil] at h
  rw [parseSignatureBody, hp]
  dsimp only
  rw [hp']

namespace Certificate

variable (c : Certificate)

def encodeSignature : Bytes :=
  match c.signature with
  | some sig => encodeString sig.format ++ encodeString sig.blob
  | none => []

theorem marshalSignature_eq : c.marshalSignature = some c.encodeSignature := by
  rw [marshalSignature, encodeSignature]
  cases c.signature with
  | some sig =>
    refine (marshal_eq signatureWire _).trans (congrArg some ?_)
    simp [encode, signatureWire, encodeFields, Kind.encode]
  | none => rfl

def generic (signatureKey : Bytes) : Vals genericCertData.fields :=
  (c.serial, c.certType, c.keyId, c.validPrincipals.flatMap encodeString, c.validAfter,
    c.validBefore, encodeTuples c.permissions.criticalOptions,
    encodeTuples c.permissions.extensions, c.reserved, signatureKey, c.encodeSignature, ())

def encodeGeneric (signatureKey : Bytes) : Bytes :=
  encodeFields genericCertData.fields (c.generic signatureKey)

theorem length_encodeGeneric (signatureKey : Bytes) :
    (c.validPrincipals.flatMap encodeString).length +
      (encodeTuples c.permissions.criticalOptions).length +
      (encodeTuples c.permissions.extensions).length + signatureKey.length +
      c.encodeSignature.length ≤ (c.encodeGeneric signatureKey).length := by
  simp only [encodeGeneric, generic, genericCertData, encodeFields, Kind.encode,
    length_append, length_encodeString]
  omega

theorem unmarshal_encodeGeneric (signatureKey : Bytes)
    (hl : (c.encodeGeneric signatureKey).length < 2 ^ 32) :
    unmarshal genericCertData (c.encodeGeneric signatureKey) = .ok (c.generic signatureKey) :=
  unmarshal_encodeFields rfl (by simp [genericCertData]) (cons_ne_nil _ _) hl

theorem parseCertData_generic (signatureKey : Bytes)
    (hl : (c.encodeGeneric signatureKey).length < 2 ^ 32) :
    parseCertData c.nonce c.key (c.generic signatureKey) = .ok { c with signature := none } := by
  have hle := c.length_encodeGeneric signatureKey
  have h₁ := parsePrincipals_flatMap c.validPrincipals (by omega)
  have h₂ := parseTuples_encodeTuples c.permissions.criticalOptions (by omega)
  have h₃ := parseTuples_encodeTuples c.permissions.extensions (by omega)
  simp only [parseCertData, generic, h₁, h₂, h₃]
  rfl

end Certificate

theorem KeyAlgo.length_name_le (a : KeyAlgo) :
    (ascii a.name).length ≤ (ascii a.certName).length := by
  cases a <;> decide +kernel

instance : Decidable (StringFits s rest) :=
  inferInstanceAs (Decidable (s.length < 2 ^ 32 ∧ s.length ≤ u32 (s.length + rest.length)))

/-- The key of a certificate without its name. `Marshal` finds nothing when the two together are so
long that the name does not seem to fit. -/
def certKeyBytes (E : Elliptic) (key : RawKey) : Bytes :=
  if StringFits (ascii key.algo.name) (key.fields E) then key.fields E else []

theorem KeyAlgo.length_name_lt (a : KeyAlgo) : (ascii a.name).length < 2 ^ 32 := by
  cases a <;> decide +kernel

theorem getD_parseString_key (E : Elliptic) (key : RawKey) :
    ((parseString (encodeString (ascii key.algo.name) ++ key.fields E)).map
      fun r => r.2).getD [] = certKeyBytes E key := by
  have hlt := key.algo.length_name_lt
  by_cases h : StringFits (ascii key.algo.name) (key.fields E)
  · rw [certKeyBytes, if_pos h, parseString_of_fits h]
    rfl
  have hle : u32 ((ascii key.algo.name).length + (key.fields E).length) <
      u32 (ascii key.algo.name).length := by
    rw [u32_of_lt hlt]
    exact Nat.lt_of_not_le fun hle => h ⟨hlt, hle⟩
  rw [certKeyBytes, if_neg h, parseString_encodeString, if_pos hle]
  rfl

namespace PublicKey

def encode (E : Elliptic) : PublicKey → Bytes
  | .raw key => encodeString (ascii key.algo.name) ++ key.fields E
  | .cert c signatureKey => encodeString (ascii c.key.algo.certName) ++ (encodeString c.nonce ++
      (c.key.fields E ++ c.encodeGeneric (signatureKey.encode E)))

/-- The keys of the supported types, and the certificates made of them that have been signed. -/
def Valid (E : Elliptic) : PublicKey → Prop
  | .raw key => key.Valid E
  | .cert c signatureKey => c.key.Valid E ∧ c.signature ≠ none ∧ signatureKey.Valid E

theorem length_encode_cert {c : Certificate} {k : PublicKey}
    (hl : ((cert c k).encode E).length < 2 ^ 32) :
    (ascii c.key.algo.certName).length + c.nonce.length + (c.key.fields E).length +
        (c.encodeGeneric (k.encode E)).length + 8 < 2 ^ 32 ∧ (k.encode E).length < 2 ^ 32 := by
  have hle := c.length_encodeGeneric (k.encode E)
  rw [encode, length_append, length_append, length_append, length_encodeString,
    length_encodeString] at hl
  omega

/-- What `Marshal` gives, however long it is. -/
def written (E : Elliptic) : PublicKey → Bytes
  | .raw key => encodeString (ascii key.algo.name) ++ key.fields E
  | .cert c signatureKey => encodeString (ascii c.key.algo.certName) ++ (encodeString c.nonce ++
      (certKeyBytes E c.key ++ c.encodeGeneric (signatureKey.written E)))

theorem marshal_eq_written (E : Elliptic) (k : PublicKey) : k.marshal E = some (k.written E) := by
  induction k with
  | raw key => exact key.marshal_eq E
  | cert c k ih =>
    have hstart : XCryptoSsh.marshal certWire
        (ascii c.key.algo.certName, c.nonce, certKeyBytes E c.key, ()) =
        some (encodeString (ascii c.key.algo.certName) ++
          (encodeString c.nonce ++ certKeyBytes E c.key)) := by
      refine (StructType.marshal_eq certWire _).trans (congrArg some ?_)
      simp [StructType.encode, certWire, wireStruct, encodeFields, Kind.encode]
    have hgeneric : XCryptoSsh.marshal genericCertData (c.generic (k.written E)) =
        some (c.encodeGeneric (k.written E)) := StructType.marshal_eq genericCertData _
    rw [Certificate.generic] at hgeneric
    rw [marshal, marshalStringList_eq, marshalTuples_eq, marshalTuples_eq, ih,
      c.marshalSignature_eq]
    simp only [bind_eq_bind, bind_some, hgeneric, c.key.marshal_eq E,
      getD_parseString_key, hstart, written, append_assoc]
    rfl

theorem marshal_eq {k : PublicKey} (hl : (k.encode E).length < 2 ^ 32) :
    k.marshal E = some (k.encode E) := by
  rw [marshal_eq_written]
  induction k with
  | raw key => rfl
  | cert c k ih =>
    obtain ⟨hsum, hk⟩ := length_encode_cert hl
    have hname := c.key.algo.length_name_le
    rw [written, encode, certKeyBytes, if_pos (stringFits_of_length_lt (by omega)),
      Option.some.inj (ih hk)]

theorem parseCert_encode {c : Certificate} {k : PublicKey} (hv : c.key.Valid E)
    (hs : c.signature = some sig) (hl : ((cert c k).encode E).length < 2 ^ 32)
    {parseKey : (b : Bytes) → b.length < (encodeString c.nonce ++
      (c.key.fields E ++ c.encodeGeneric (k.encode E))).length → Except Err PublicKey}
    (hkey : ∀ h, parseKey (k.encode E) h = .ok k) :
    parseCert E (encodeString c.nonce ++ (c.key.fields E ++ c.encodeGeneric (k.encode E)))
      c.key.algo parseKey = .ok (cert c k) := by
  obtain ⟨hsum, hk⟩ := length_encode_cert hl
  have h₁ : parseString (encodeString c.nonce ++
      (c.key.fields E ++ c.encodeGeneric (k.encode E))) =
      some (c.nonce, c.key.fields E ++ c.encodeGeneric (k.encode E)) := by
    apply parseString_of_fits
    apply stringFits_of_length_lt
    rw [length_append]
    omega
  have h₂ : parsePlainKey E (c.key.fields E ++ c.encodeGeneric (k.encode E)) c.key.algo =
      .ok (c.key, c.encodeGeneric (k.encode E)) := by
    apply parsePlainKey_fields _ hv
    rw [length_append]
    omega
  have h₃ := c.unmarshal_encodeGeneric (k.encode E) (by omega)
  have h₄ := c.parseCertData_generic (k.encode E) (by omega)
  have h₅ : parseSignatureBody (certSignature (c.generic (k.encode E))) = some (sig, []) := by
    change parseSignatureBody c.encodeSignature = some (sig, [])
    have hle := c.length_encodeGeneric (k.encode E)
    have he : c.encodeSignature = encodeString sig.format ++ encodeString sig.blob := by
      rw [Certificate.encodeSignature, hs]
    rw [he] at hle ⊢
    exact parseSignatureBody_encode (by omega)
  unfold parseCert
  split
  · rename_i h
    cases h₁.symm.trans h
  rename_i h
  cases h₁.symm.trans h
  split
  · rename_i h
    cases h₂.symm.trans h
  rename_i h
  cases h₂.symm.trans h
  split
  · rename_i h
    cases h₃.symm.trans h
  rename_i h
  cases h₃.symm.trans h
  rw [h₄]
  refine except_bind_eq_ok.mpr ⟨_, rfl, except_bind_eq_ok.mpr ⟨k, hkey _, ?_⟩⟩
  rw [h₅]
  change Except.ok (cert { c with signature := some sig } k) = _
  rw [← hs]

theorem parsePublicKey_encode {k : PublicKey} (hv : k.Valid E)
    (hl : (k.encode E).length < 2 ^ 32) : parsePublicKey E (k.encode E) = .ok k := by
  induction k with
  | raw key =>
    have hlen := hl
    rw [encode, length_append, length_encodeString] at hlen
    have hp : parseString (encode E (raw key)) = some (ascii key.algo.name, key.fields E) :=
      parseString_of_fits (stringFits_of_length_lt (by omega))
    have hkey : parsePlainKey E (key.fields E) key.algo = .ok (key, []) := by
      have h := parsePlainKey_fields [] hv (by rw [append_nil]; omega)
      rwa [append_nil] at h
    rw [parsePublicKey]
    split <;> rename_i h <;> rw [hp] at h <;> cases h
    rw [parsePubKey, KeyAlgo.ofName_name]
    dsimp only
    rw [hkey]
    rfl
  | cert c k ih =>
    obtain ⟨hc, hsig, hk⟩ := hv
    obtain ⟨sig, hs⟩ := ne_none_iff_exists'.mp hsig
    obtain ⟨hsum, hlk⟩ := length_encode_cert hl
    have hp : parseString (encode E (cert c k)) = some (ascii c.key.algo.certName,
        encodeString c.nonce ++ (c.key.fields E ++ c.encodeGeneric (k.encode E))) := by
      apply parseString_of_fits
      apply stringFits_of_length_lt
      rw [length_append, length_append, length_encodeString]
      omega
    rw [parsePublicKey]
    split <;> rename_i h <;> rw [hp] at h <;> cases h
    rw [parsePubKey, KeyAlgo.ofName_certName, KeyAlgo.ofCertName_certName]
    dsimp only
    rw [parseCert_encode hc hs hl fun _ => ih hk hlk]
    rfl

/-- A key whose encoding is shorter than 2^32 bytes is read back from what `Marshal` gives. -/
theorem parsePublicKey_marshal (E : Elliptic) (k : PublicKey) (hv : k.Valid E)
    (hl : (k.encode E).length < 2 ^ 32) :
    ∃ b, k.marshal E = some b ∧ parsePublicKey E b = .ok k :=
  ⟨_, marshal_eq hl, parsePublicKey_encode hv hl⟩

theorem length_nonce_of_parseCert (h : parseCert E input algo parseKey = .ok (cert c k)) :
    c.nonce.length < 2 ^ 32 := by
  unfold parseCert at h
  split at h
  · cases h
  rename_i nonce rest hnonce
  split at h
  · cases h
  split at h
  · cases h
  obtain ⟨c', hc, h⟩ := except_bind_eq_ok.mp h
  obtain ⟨k', -, h⟩ := except_bind_eq_ok.mp h
  have hc' : c'.nonce = nonce := by
    obtain ⟨_, -, hc⟩ := except_bind_eq_ok.mp hc
    obtain ⟨_, -, hc⟩ := except_bind_eq_ok.mp hc
    obtain ⟨_, -, hc⟩ := except_bind_eq_ok.mp hc
    cases hc
    rfl
  split at h
  · cases h
    rw [hc']
    exact (length_of_parseString hnonce).1
  · cases h

theorem length_nonce_of_parsePublicKey (h : parsePublicKey E b = .ok (cert c k)) :
    c.nonce.length < 2 ^ 32 := by
  rw [parsePublicKey] at h
  split at h
  · cases h
  obtain ⟨⟨key, junk⟩, hkey, h⟩ := except_bind_eq_ok.mp h
  have he : key = cert c k := by
    dsimp only at h
    split at h
    · cases h
    · cases h
      rfl
  subst key
  unfold parsePubKey at hkey
  split at hkey
  · obtain ⟨_, -, hkey⟩ := except_bind_eq_ok.mp hkey
    cases hkey
  split at hkey
  · obtain ⟨_, hcert, hkey⟩ := except_bind_eq_ok.mp hkey
    cases hkey
    exact length_nonce_of_parseCert hcert
  · cases hkey

def onePoint : Elliptic where
  marshal _ _ _ := [4]
  unmarshal _ b := if b = [4] then some (0, 0) else none
  onCurve _ x y := x = 0 ∧ y = 0
  unmarshal_marshal h := by rw [h.1, h.2]; rfl

def certWithNonce (nonce : Bytes) : Certificate where
  nonce := nonce
  key := .ed25519 (replicate 32 7)
  serial := 1
  certType := 1
  keyId := ascii "id"
  validPrincipals := [ascii "root"]
  validAfter := 0
  validBefore := 0
  permissions := ⟨Finmap.singleton (ascii "force-command") (ascii "ls"),
    Finmap.singleton (ascii "permit-pty") []⟩
  reserved := []
  signature := some ⟨ascii "ssh-rsa", [1]⟩

theorem valid_certWithNonce (nonce : Bytes) :
    (cert (certWithNonce nonce) (.raw (.rsa 3 15))).Valid onePoint :=
  ⟨trivial, some_ne_none _, by norm_num, by norm_num, by norm_num⟩

/-- The length of a nonce of 2^32 bytes is written as 0. -/
theorem parsePublicKey_long_nonce :
    let k := cert (certWithNonce (replicate (2 ^ 32) 0)) (.raw (.rsa 3 15))
    k.Valid onePoint ∧ ∀ b, k.marshal onePoint = some b → parsePublicKey onePoint b ≠ .ok k := by
  have hlen : (replicate (2 ^ 32) (0 : UInt8)).length = 2 ^ 32 := length_replicate
  generalize replicate (2 ^ 32) (0 : UInt8) = nonce at hlen ⊢
  refine ⟨valid_certWithNonce nonce, fun b _ h => ?_⟩
  have hlt : nonce.length < 2 ^ 32 := length_nonce_of_parsePublicKey h
  omega

theorem encodeTuples_singleton (k v : Bytes) :
    encodeTuples (Finmap.singleton k v) = encodeTuple (Finmap.singleton k v) k := by
  rw [encodeTuples, Finmap.keys_singleton, Finset.sort_singleton, flatMap_singleton]

theorem parsePublicKey_marshal_cert :
    let k := cert (certWithNonce [1, 2, 3]) (.raw (.rsa 3 15))
    ∃ b, k.marshal onePoint = some b ∧ parsePublicKey onePoint b = .ok k := by
  refine parsePublicKey_marshal onePoint _ (valid_certWithNonce _) ?_
  simp only [encode, Certificate.encodeGeneric, Certificate.generic, certWithNonce,
    encodeTuples_singleton]
  decide +kernel

end PublicKey
end XCryptoSsh
