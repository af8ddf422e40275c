import XCryptoSsh.Certs
import XCryptoSsh.KeysRoundTrip
import XCryptoSsh.MessagesCanonical

namespace XCryptoSsh
open Go Option Prod
open List (append_assoc length_append flatMap_cons mem_cons_self append_nil length_nil foldl_cons
  flatMap_map)
set_option autoImplicit true

/-- `elliptic.Marshal` gives a point that `elliptic.Unmarshal` read its bytes back. -/
def Elliptic.Exact (E : Elliptic) : Prop :=
  ∀ {curve b x y}, E.unmarshal curve b = some (x, y) → E.marshal curve x y = b

def KeyAlgo.wire : KeyAlgo → List Field
  | .rsa => rsaFields.fields
  | .dsa => dsaFields.fields
  | .ecdsa256 | .ecdsa384 | .ecdsa521 => ecdsaFields.fields
  | .ed25519 => ed25519Fields.fields

theorem Curve.eq_of_ofID {b : Bytes} (h : Curve.ofID b = some curve) : ascii curve.nistID = b :=
  beq_iff_eq.mp (List.find?_some (p := fun c : Curve => ascii c.nistID == b) h)

theorem KeyAlgo.eq_of_ofName (h : ofName algo = some a) : algo = ascii a.name :=
  (beq_iff_eq.mp (List.find?_some (p := fun a : KeyAlgo => ascii a.name == algo) h)).symm

theorem KeyAlgo.eq_of_ofCertName (h : ofCertName algo = some a) : algo = ascii a.certName :=
  (beq_iff_eq.mp (List.find?_some (p := fun a : KeyAlgo => ascii a.certName == algo) h)).symm

theorem KeyAlgo.certName_inj (h : ascii (certName a) = ascii (certName a')) : a = a' := by
  have h := congrArg ofCertName h
  rw [ofCertName_certName, ofCertName_certName] at h
  exact some.inj h

theorem KeyAlgo.name_inj (h : ascii (name a) = ascii (name a')) : a = a' := by
  have h := congrArg ofName h
  rw [ofName_name, ofName_name] at h
  exact some.inj h

theorem unmarshalFields_of_unmarshal {t : StructType} {m : Vals t.fields} (ht : t.tags = [])
    (h : unmarshal t data = .ok m) : unmarshalFields t.name t.fields data = .ok (m, []) := by
  obtain ⟨-, body, hb, ⟨-, rfl⟩ | ⟨x, hx, -⟩⟩ := StructType.unmarshal_eq_ok.mp h
  · exact hb
  · rw [ht] at hx
    cases hx

theorem rest_eq_of_unmarshalFields {rest : Bytes}
    (h : unmarshalFields name [⟨field, .rest⟩] data = .ok ((rest, ()), [])) : rest = data := by
  obtain ⟨d, hd, -⟩ := unmarshalFields_cons_eq_ok.mp h
  cases hd
  rfl

/-- The fields are read one after the other, and the last one is the rest of the data. -/
inductive Reads : List Field → Bytes → Bytes → Bytes → Prop
  | last {name : String} {data : Bytes} : Reads [⟨name, .rest⟩] data [] data
  | field {name : String} {k : Kind} {e : Err} {v : k.Val} : k ≠ .rest →
    k.unmarshal e data = .ok (v, d) → Reads fs d enc rest →
    Reads (⟨name, k⟩ :: fs) data (k.encode v ++ enc) rest

namespace Reads

theorem single {k : Kind} {v : k.Val} (hk : k ≠ .rest) (hv : k.unmarshal e data = .ok (v, rest)) :
    Reads [⟨name, k⟩, ⟨name', .rest⟩] data (k.encode v) rest := by
  rw [← append_nil (k.encode v)]
  exact .field hk hv .last

theorem encode_iff (h : Reads fs data enc rest) :
    enc ++ after = data ↔ FieldsCanonical fs data ∧ after = rest := by
  induction h with
  | last => simp [FieldsCanonical, Kind.Canonical]
  | field hk hv _ ih =>
    rw [append_assoc, Kind.encode_append_iff hk hv, ih, FieldsCanonical, Kind.after_eq hv,
      and_assoc]

theorem suffix (h : Reads fs data enc rest) : rest <:+ data := by
  induction h with
  | last => exact List.suffix_rfl
  | field _ hv _ ih => exact ih.trans (Kind.suffix_of_unmarshal hv)

theorem length_le (h : Reads fs data enc rest) : enc.length + rest.length ≤ data.length := by
  induction h with
  | last => exact Nat.le_of_eq (Nat.zero_add _)
  | field _ hv _ ih =>
    have hle := Kind.length_of_unmarshal hv
    rw [length_append]
    omega

end Reads

structure PlainRead (E : Elliptic) (input rest : Bytes) (a : KeyAlgo) (key : RawKey) : Prop where
  reads : Reads a.wire input (key.fields E) rest
  name : (ascii key.algo.name).length = (ascii a.name).length
  certName : (ascii key.algo.certName).length = (ascii a.certName).length

theorem reads_of_parseECDSA (hE : E.Exact) (h : parseECDSA E input = .ok (key, rest)) :
    ∃ curve x y, key = .ecdsa curve x y ∧ Reads ecdsaFields.fields input (key.fields E) rest := by
  obtain ⟨⟨id, b, r, u⟩, hu, h⟩ := except_bind_eq_ok.mp h
  dsimp only at h
  split at h
  · cases h
  rename_i curve hcurve
  split at h
  · cases h
  rename_i x y hpoint
  cases h
  obtain ⟨d₁, h₁, hu⟩ := unmarshalFields_cons_eq_ok.mp (unmarshalFields_of_unmarshal rfl hu)
  obtain ⟨d₂, h₂, hu⟩ := unmarshalFields_cons_eq_ok.mp hu
  obtain rfl := rest_eq_of_unmarshalFields hu
  obtain rfl := Curve.eq_of_ofID hcurve
  refine ⟨curve, x, y, rfl, ?_⟩
  rw [RawKey.fields, hE hpoint]
  exact .field (by simp) h₁ (.single (by simp) h₂)

theorem plainRead_of_parsePlainKey (hE : E.Exact) (h : parsePlainKey E input a = .ok (key, rest)) :
    PlainRead E input rest a key := by
  cases a with
  | rsa =>
    obtain ⟨⟨e, n, r, u⟩, hu, h⟩ := except_bind_eq_ok.mp h
    obtain ⟨_, -, h⟩ := except_bind_eq_ok.mp h
    cases h
    obtain ⟨d₁, h₁, hu⟩ := unmarshalFields_cons_eq_ok.mp (unmarshalFields_of_unmarshal rfl hu)
    obtain ⟨d₂, h₂, hu⟩ := unmarshalFields_cons_eq_ok.mp hu
    obtain rfl := rest_eq_of_unmarshalFields hu
    exact ⟨.field (by simp) h₁ (.single (by simp) h₂), rfl, rfl⟩
  | dsa =>
    obtain ⟨⟨p, q, g, y, r, u⟩, hu, h⟩ := except_bind_eq_ok.mp h
    cases h
    obtain ⟨d₁, h₁, hu⟩ := unmarshalFields_cons_eq_ok.mp (unmarshalFields_of_unmarshal rfl hu)
    obtain ⟨d₂, h₂, hu⟩ := unmarshalFields_cons_eq_ok.mp hu
    obtain ⟨d₃, h₃, hu⟩ := unmarshalFields_cons_eq_ok.mp hu
    obtain ⟨d₄, h₄, hu⟩ := unmarshalFields_cons_eq_ok.mp hu
    obtain rfl := rest_eq_of_unmarshalFields hu
    exact ⟨.field (by simp) h₁ (.field (by simp) h₂ (.field (by simp) h₃ (.single (by simp) h₄))),
      rfl, rfl⟩
  | ecdsa256 | ecdsa384 | ecdsa521 =>
    obtain ⟨curve, x, y, rfl, hr⟩ := reads_of_parseECDSA hE h
    refine ⟨hr, ?_, ?_⟩
    · change (ascii curve.keyAlgo.name).length = _
      cases curve <;> decide +kernel
    · change (ascii curve.keyAlgo.certName).length = _
      cases curve <;> decide +kernel
  | ed25519 =>
    obtain ⟨⟨b, r, u⟩, hu, h⟩ := except_bind_eq_ok.mp h
    cases h
    obtain ⟨d₁, h₁, hu⟩ := unmarshalFields_cons_eq_ok.mp (unmarshalFields_of_unmarshal rfl hu)
    obtain rfl := rest_eq_of_unmarshalFields hu
    exact ⟨.single (by simp) h₁, rfl, rfl⟩

theorem length_fields_pos (E : Elliptic) (key : RawKey) : 0 < (key.fields E).length := by
  cases key with
  | rsa | dsa | ecdsa | ed25519 =>
    simp only [RawKey.fields, length_append, length_encodeString]
    omega

def encodeEntries (l : List (Bytes × Bytes)) : Bytes :=
  l.flatMap fun p => encodeString p.1 ++ encodeString p.2

def EntriesShort (l : List (Bytes × Bytes)) : Prop :=
  ∀ p ∈ l, p.1.length < 2 ^ 32 ∧ p.2.length < 2 ^ 32

theorem encodeEntries_cons (p : Bytes × Bytes) (l : List (Bytes × Bytes)) :
    encodeEntries (p :: l) = encodeString p.1 ++ (encodeString p.2 ++ encodeEntries l) := by
  rw [encodeEntries, flatMap_cons, append_assoc]
  rfl

theorem encodeEntries_inj (hl : EntriesShort l) (hl' : EntriesShort l')
    (h : encodeEntries l = encodeEntries l') : l = l' := by
  induction l generalizing l' with
  | nil =>
    cases l' with
    | nil => rfl
    | cons p l' =>
      rw [encodeEntries_cons] at h
      exact absurd h.symm (encodeString_append_ne _ _)
  | cons p l ih =>
    cases l' with
    | nil =>
      rw [encodeEntries_cons] at h
      exact absurd h (encodeString_append_ne _ _)
    | cons q l' =>
      rw [encodeEntries_cons, encodeEntries_cons] at h
      obtain ⟨hp₁, hp₂⟩ := hl p mem_cons_self
      obtain ⟨hq₁, hq₂⟩ := hl' q mem_cons_self
      obtain ⟨hkey, h⟩ := encodeString_append_inj hp₁ hq₁ h
      obtain ⟨hval, h⟩ := encodeString_append_inj hp₂ hq₂ h
      rw [ih (fun r hr => hl r (.tail p hr)) (fun r hr => hl' r (.tail q hr)) h,
        Prod.ext hkey hval]

def TuplesCanonical (input : Bytes) : Prop :=
  ∃ l, EntriesShort l ∧ input = encodeEntries l ∧ ∀ p ∈ l, p.2 ≠ encodeString []

def optionValue (val : Bytes) : Bytes :=
  match parseOptionValue val with
  | .ok value => value
  | .error _ => []

theorem parseOptionValue_eq_ok (h : parseOptionValue val = .ok value) :
    val = [] ∧ value = [] ∨ val = encodeString value := by
  unfold parseOptionValue at h
  split at h
  · split at h
    · cases h
    rename_i s extra hp
    split at h
    · cases h
    rename_i hextra
    cases h
    have hnil : extra = [] := List.length_eq_zero_iff.mp (Nat.eq_zero_of_not_pos hextra)
    rw [← eq_of_parseString hp, hnil, append_nil]
    exact .inr rfl
  · rename_i hval
    cases h
    exact .inl ⟨List.length_eq_zero_iff.mp (Nat.eq_zero_of_not_pos hval), rfl⟩

theorem encodeOptionValue_iff (h : parseOptionValue val = .ok value) :
    encodeOptionValue value = val ↔ val ≠ encodeString [] := by
  rcases parseOptionValue_eq_ok h with ⟨rfl, rfl⟩ | rfl
  · exact iff_of_true rfl nofun
  cases value with
  | nil => exact iff_of_false nofun (not_not.mpr rfl)
  | cons x value =>
    refine iff_of_true rfl fun he => ?_
    have hlen := congrArg List.length he
    rw [length_encodeString, length_encodeString, List.length_cons, length_nil] at hlen
    omega

theorem length_encodeOptionValue_le (h : parseOptionValue val = .ok value) :
    (encodeOptionValue value).length ≤ val.length := by
  rcases parseOptionValue_eq_ok h with ⟨rfl, rfl⟩ | rfl
  · exact le_rfl
  rw [encodeOptionValue]
  split
  · exact le_rfl
  · exact Nat.zero_le _

structure TuplesRead (lastKey : Option Bytes) (tups : StringMap) (input : Bytes)
    (l : List (Bytes × Bytes)) (tups' : StringMap) : Prop where
  bytes : input = encodeEntries l
  short : EntriesShort l
  values : ∀ p ∈ l, parseOptionValue p.2 = .ok (optionValue p.2)
  last : ∀ k ∈ lastKey, ∀ p ∈ l, ¬ StringLe p.1 k
  sorted : l.Pairwise fun p q => ¬ StringLe q.1 p.1
  result : tups' = l.foldl (fun m p => m.insert p.1 (optionValue p.2)) tups

theorem exists_tuplesRead (h : parseTuplesFrom lastKey tups input = .ok tups') :
    ∃ l, TuplesRead lastKey tups input l tups' := by
  induction hn : input.length using Nat.strong_induction_on generalizing lastKey tups input with
  | _ n ih =>
    subst n
    rw [parseTuplesFrom] at h
    split at h
    · rename_i hnil
      cases h
      exact ⟨[], hnil, by rintro _ ⟨⟩, by simp, by simp, .nil, rfl⟩
    split at h
    · cases h
    rename_i key rest hkey
    split at h
    · cases h
    rename_i horder
    split at h
    · cases h
    rename_i val rest' hval
    obtain ⟨value, hvalue, h⟩ := except_bind_eq_ok.mp h
    have hlt := (rest_lt_of_parseString hval).trans (rest_lt_of_parseString hkey)
    obtain ⟨l, hl⟩ := ih _ hlt h rfl
    have hopt : optionValue val = value := by rw [optionValue, hvalue]
    have hhead : ∀ k ∈ lastKey, ¬ StringLe key k := by
      rintro k rfl hle
      exact horder (by simpa using hle)
    refine ⟨(key, val) :: l, ?_, ?_, ?_, ?_, ?_, ?_⟩
    · rw [encodeEntries_cons, ← hl.bytes, eq_of_parseString hval, eq_of_parseString hkey]
    · intro p hp
      rcases List.mem_cons.mp hp with rfl | hp
      · exact ⟨(length_of_parseString hkey).1, (length_of_parseString hval).1⟩
      · exact hl.short p hp
    · intro p hp
      rcases List.mem_cons.mp hp with rfl | hp
      · rw [hopt]
        exact hvalue
      · exact hl.values p hp
    · intro k hk p hp
      rcases List.mem_cons.mp hp with rfl | hp
      · exact hhead k hk
      -- the keys that follow are above this one
      intro hle
      rcases total_of StringLe key p.1 with hkp | hpk
      · exact hhead k hk (trans_of StringLe hkp hle)
      · exact hl.last key rfl p hp hpk
    · exact List.pairwise_cons.mpr ⟨fun p hp => hl.last key rfl p hp, hl.sorted⟩
    · rw [hl.result, foldl_cons, hopt]

theorem foldl_insert_lookup_of_notMem {f : Bytes × Bytes → Bytes} {l : List (Bytes × Bytes)}
    {tups : StringMap} {k : Bytes} (h : ∀ p ∈ l, p.1 ≠ k) :
    (l.foldl (fun m p => m.insert p.1 (f p)) tups).lookup k = tups.lookup k := by
  induction l generalizing tups with
  | nil => rfl
  | cons p l ih =>
    rw [foldl_cons, ih fun q hq => h q (.tail p hq),
      Finmap.lookup_insert_of_ne _ (h p mem_cons_self).symm]

theorem foldl_insert_lookup {f : Bytes × Bytes → Bytes} {l : List (Bytes × Bytes)}
    {tups : StringMap} (hd : l.Pairwise fun p q => p.1 ≠ q.1) (hp : p ∈ l) :
    (l.foldl (fun m p => m.insert p.1 (f p)) tups).lookup p.1 = some (f p) := by
  induction l generalizing tups with
  | nil => cases hp
  | cons q l ih =>
    obtain ⟨hq, hd⟩ := List.pairwise_cons.mp hd
    rw [foldl_cons]
    rcases List.mem_cons.mp hp with rfl | hp
    · rw [foldl_insert_lookup_of_notMem fun q' hq' => (hq q' hq').symm, Finmap.lookup_insert]
    · exact ih hd hp

theorem foldl_insert_keys {f : Bytes × Bytes → Bytes} (l : List (Bytes × Bytes))
    (tups : StringMap) : (l.foldl (fun m p => m.insert p.1 (f p)) tups).keys =
      tups.keys ∪ (l.map fst).toFinset := by
  induction l generalizing tups with
  | nil => simp
  | cons p l ih =>
    rw [foldl_cons, ih]
    ext k
    simp only [Finset.mem_union, Finmap.mem_keys, Finmap.mem_insert, List.mem_toFinset,
      List.map_cons, List.mem_cons]
    tauto

theorem TuplesRead.encodeTuples_eq (h : TuplesRead lastKey ∅ input l tups) :
    encodeTuples tups =
      encodeEntries (l.map fun p => (p.1, encodeOptionValue (optionValue p.2))) := by
  have hne : l.Pairwise fun p q => p.1 ≠ q.1 := by
    refine h.sorted.imp fun hlt he => hlt ?_
    rw [he]
    exact refl_of StringLe _
  have hle : l.Pairwise fun p q => StringLe p.1 q.1 := by
    refine h.sorted.imp fun {p q} hlt => ?_
    exact (total_of StringLe p.1 q.1).resolve_right hlt
  have hkeys : tups.keys.sort StringLe = l.map fst := by
    rw [h.result, foldl_insert_keys, Finmap.keys_empty, Finset.empty_union]
    exact (List.toFinset_sort _ (List.pairwise_map.mpr hne)).mpr (List.pairwise_map.mpr hle)
  rw [encodeTuples, hkeys, encodeEntries, flatMap_map, flatMap_map]
  refine List.flatMap_congr fun p hp => ?_
  rw [encodeTuple, h.result, foldl_insert_lookup hne hp]
  rfl

theorem TuplesRead.length_le (h : TuplesRead lastKey ∅ input l tups) :
    (encodeTuples tups).length ≤ input.length := by
  rw [h.encodeTuples_eq, h.bytes, encodeEntries, encodeEntries, flatMap_map]
  have hvalues := h.values
  clear h
  induction l with
  | nil => exact le_rfl
  | cons p l ih =>
    have hrest := ih fun q hq => hvalues q (.tail p hq)
    have hval := length_encodeOptionValue_le (hvalues p mem_cons_self)
    simp only [flatMap_cons, length_append, length_encodeString] at hrest ⊢
    omega

theorem TuplesRead.encodeTuples_iff (h : TuplesRead lastKey ∅ input l tups) :
    encodeTuples tups = input ↔ TuplesCanonical input := by
  have hshort : EntriesShort (l.map fun p => (p.1, encodeOptionValue (optionValue p.2))) := by
    intro q hq
    obtain ⟨p, hp, rfl⟩ := List.mem_map.mp hq
    obtain ⟨h₁, h₂⟩ := h.short p hp
    exact ⟨h₁, (length_encodeOptionValue_le (h.values p hp)).trans_lt h₂⟩
  have hsame : (l.map fun p => (p.1, encodeOptionValue (optionValue p.2))) = l ↔
      ∀ p ∈ l, p.2 ≠ encodeString [] := by
    have hid : (l.map fun p => (p.1, encodeOptionValue (optionValue p.2))) = l.map id ↔ _ :=
      List.map_inj_left
    rw [List.map_id] at hid
    rw [hid]
    refine forall₂_congr fun p hp => ?_
    rw [← encodeOptionValue_iff (h.values p hp)]
    exact ⟨fun he => congrArg Prod.snd he, fun he => Prod.ext rfl he⟩
  rw [h.encodeTuples_eq, h.bytes]
  constructor
  · intro he
    exact ⟨l, h.short, rfl, hsame.mp (encodeEntries_inj hshort h.short he)⟩
  rintro ⟨l', hl', he, hvals⟩
  obtain rfl := encodeEntries_inj h.short hl' he
  rw [hsame.mpr hvals]

theorem flatMap_parsePrincipals (h : parsePrincipals input = .ok names) :
    names.flatMap encodeString = input := by
  induction hn : input.length using Nat.strong_induction_on generalizing input names with
  | _ n ih =>
    subst n
    rw [parsePrincipals] at h
    split at h
    · rename_i hnil
      cases h
      rw [hnil]
      rfl
    split at h
    · cases h
    rename_i principal rest hp
    obtain ⟨names', hnames, h⟩ := except_bind_eq_ok.mp h
    cases h
    rw [flatMap_cons, ih _ (rest_lt_of_parseString hp) hnames rfl, eq_of_parseString hp]

theorem encode_parseSignatureBody (h : parseSignatureBody input = some (sig, [])) :
    encodeString sig.format ++ encodeString sig.blob = input := by
  unfold parseSignatureBody at h
  split at h
  · cases h
  rename_i format rest hf
  split at h
  · cases h
  rename_i blob rest' hb
  cases h
  rw [← eq_of_parseString hf, ← eq_of_parseString hb, append_nil]

def certCriticalOptions (g : Vals genericCertData.fields) : Bytes := g.2.2.2.2.2.2.1

def certExtensions (g : Vals genericCertData.fields) : Bytes := g.2.2.2.2.2.2.2.1

theorem encodeFields_genericCertData (h : unmarshal genericCertData input = .ok g) :
    encodeFields genericCertData.fields g = input := by
  have hfields := unmarshalFields_of_unmarshal rfl h
  have hc : FieldsCanonical genericCertData.fields input := by
    refine ⟨trivial, trivial, trivial, trivial, trivial, trivial, trivial, trivial, trivial,
      trivial, trivial, trivial⟩
  rw [← append_nil (encodeFields _ _)]
  exact (encodeFields_append_iff (by simp [genericCertData]) hfields).mpr ⟨hc, rfl⟩

structure GenericRead (nonce : Bytes) (key : RawKey) (input : Bytes)
    (g : Vals genericCertData.fields) (c : Certificate) : Prop where
  read : unmarshal genericCertData input = .ok g
  nonce_eq : c.nonce = nonce
  key_eq : c.key = key
  signature : c.encodeSignature = certSignature g
  signed : ∃ sig, c.signature = some sig
  /-- Only the options and the key that signed may come out otherwise. -/
  generic : ∀ b, c.generic b = (g.1, g.2.1, g.2.2.1, g.2.2.2.1, g.2.2.2.2.1, g.2.2.2.2.2.1,
    encodeTuples c.permissions.criticalOptions, encodeTuples c.permissions.extensions,
    g.2.2.2.2.2.2.2.2.1, b, certSignature g, ())
  criticalOptions : ∃ l, TuplesRead none ∅ (certCriticalOptions g) l c.permissions.criticalOptions
  extensions : ∃ l, TuplesRead none ∅ (certExtensions g) l c.permissions.extensions

theorem genericRead_of_parseCertData (hu : unmarshal genericCertData input = .ok g)
    (h : parseCertData nonce key g = .ok c)
    (hs : parseSignatureBody (certSignature g) = some (sig, [])) :
    GenericRead nonce key input g { c with signature := some sig } := by
  obtain ⟨serial, certType, keyId, principals, validAfter, validBefore, crit, ext, reserved,
    sigKey, sigBytes, u⟩ := g
  obtain ⟨names, hnames, h⟩ := except_bind_eq_ok.mp h
  obtain ⟨tups, htups, h⟩ := except_bind_eq_ok.mp h
  obtain ⟨tups', htups', h⟩ := except_bind_eq_ok.mp h
  cases h
  have hsig := encode_parseSignatureBody hs
  refine ⟨hu, rfl, rfl, hsig, ⟨sig, rfl⟩, fun b => ?_, exists_tuplesRead htups,
    exists_tuplesRead htups'⟩
  simp only [Certificate.generic, Certificate.encodeSignature, hsig, flatMap_parsePrincipals hnames]
  rfl

namespace GenericRead

theorem encodeGeneric_iff (h : GenericRead nonce key input g c)
    (hb : b.length ≤ (certSignatureKey g).length) :
    c.encodeGeneric b = input ↔ TuplesCanonical (certCriticalOptions g) ∧
      TuplesCanonical (certExtensions g) ∧ b = certSignatureKey g := by
  obtain ⟨l, hcrit⟩ := h.criticalOptions
  obtain ⟨l', hext⟩ := h.extensions
  have hgeneric := h.generic b
  have hle := hcrit.length_le
  have hle' := hext.length_le
  have hshort := fieldsShort_of_unmarshal (unmarshalFields_of_unmarshal rfl h.read)
  rw [Certificate.encodeGeneric, ← encodeFields_genericCertData h.read, ← hcrit.encodeTuples_iff,
    ← hext.encodeTuples_iff, hgeneric]
  obtain ⟨serial, certType, keyId, principals, validAfter, validBefore, crit, ext, reserved,
    sigKey, sigBytes, u⟩ := g
  obtain ⟨s₁, s₂, s₃, s₄, s₅, s₆, s₇, s₈, s₉, s₁₀, s₁₁, -⟩ := hshort
  have hshort' : FieldsShort genericCertData.fields (serial, certType, keyId, principals,
      validAfter, validBefore, encodeTuples c.permissions.criticalOptions,
      encodeTuples c.permissions.extensions, reserved, b, sigBytes, ()) := by
    refine ⟨s₁, s₂, s₃, s₄, s₅, s₆, ?_, ?_, s₉, ?_, s₁₁, trivial⟩
    · exact Kind.short_of_contents rfl (hle.trans_lt (s₇ _ rfl))
    · exact Kind.short_of_contents rfl (hle'.trans_lt (s₈ _ rfl))
    · exact Kind.short_of_contents rfl (hb.trans_lt (s₁₀ _ rfl))
  constructor
  · intro he
    have he := congrArg (fun d : Bytes => d ++ []) he
    have heq := (encodeFields_append_inj (by simp [genericCertData, Kind.delimited]) hshort'
      ⟨s₁, s₂, s₃, s₄, s₅, s₆, s₇, s₈, s₉, s₁₀, s₁₁, trivial⟩ he).1
    cases heq
    exact ⟨rfl, rfl, rfl⟩
  · rintro ⟨h₁, h₂, h₃⟩
    rw [h₁, h₂, h₃]
    rfl

theorem length_encodeString_le {s s' : Bytes} (h : s.length ≤ s'.length) :
    (encodeString s).length ≤ (encodeString s').length := by
  rw [length_encodeString, length_encodeString]
  omega

theorem length_encodeGeneric_le (h : GenericRead nonce key input g c)
    (hb : b.length ≤ (certSignatureKey g).length) : (c.encodeGeneric b).length ≤ input.length := by
  obtain ⟨l, hcrit⟩ := h.criticalOptions
  obtain ⟨l', hext⟩ := h.extensions
  have hle := hcrit.length_le
  have hle' := hext.length_le
  have hgeneric := h.generic b
  rw [Certificate.encodeGeneric, ← encodeFields_genericCertData h.read, hgeneric]
  obtain ⟨serial, certType, keyId, principals, validAfter, validBefore, crit, ext, reserved,
    sigKey, sigBytes, u⟩ := g
  have h₁ : (encodeString (encodeTuples c.permissions.criticalOptions)).length ≤
      (encodeString crit).length := length_encodeString_le hle
  have h₂ : (encodeString (encodeTuples c.permissions.extensions)).length ≤
      (encodeString ext).length := length_encodeString_le hle'
  have h₃ : (encodeString b).length ≤ (encodeString sigKey).length := length_encodeString_le hb
  simp only [genericCertData, encodeFields, Kind.encode, length_append, certSignature]
  omega

end GenericRead

def Certificate.encodeSigned (c : Certificate) (signatureKey : Bytes) : Bytes :=
  putUint64 c.serial.toNat ++ putUint32 c.certType.toNat ++ encodeString c.keyId ++
    encodeString (c.validPrincipals.flatMap encodeString) ++ putUint64 c.validAfter.toNat ++
    putUint64 c.validBefore.toNat ++ encodeString (encodeTuples c.permissions.criticalOptions) ++
    encodeString (encodeTuples c.permissions.extensions) ++ encodeString c.reserved ++
    encodeString signatureKey

theorem Certificate.encodeGeneric_eq (c : Certificate) (signatureKey : Bytes) :
    c.encodeGeneric signatureKey =
      c.encodeSigned signatureKey ++ encodeString c.encodeSignature := by
  simp [encodeGeneric, generic, genericCertData, encodeFields, Kind.encode, encodeSigned]

theorem written_cert_eq (E : Elliptic) (c : Certificate) (k : PublicKey) :
    (PublicKey.cert c k).written E = encodeString (ascii c.key.algo.certName) ++
      (encodeString c.nonce ++ (certKeyBytes E c.key ++ c.encodeSigned (k.written E))) ++
        encodeString c.encodeSignature := by
  rw [PublicKey.written, c.encodeGeneric_eq]
  simp only [append_assoc]

theorem Certificate.bytesForSigning_eq (E : Elliptic) (c : Certificate) (k : PublicKey) :
    c.bytesForSigning E k = some (encodeString (ascii c.key.algo.certName) ++
      (encodeString c.nonce ++ (certKeyBytes E c.key ++ c.encodeSigned (k.written E)))) := by
  have hout : (PublicKey.cert { c with signature := none } k).written E =
      encodeString (ascii c.key.algo.certName) ++ (encodeString c.nonce ++
        (certKeyBytes E c.key ++ c.encodeSigned (k.written E))) ++ encodeString [] :=
    written_cert_eq E _ k
  generalize encodeString (ascii c.key.algo.certName) ++ (encodeString c.nonce ++
    (certKeyBytes E c.key ++ c.encodeSigned (k.written E))) = front at hout ⊢
  have hlen : (front ++ encodeString []).length = front.length + 4 := by
    rw [length_append, length_encodeString, length_nil]
  have hlong : ¬ (front ++ encodeString []).length < 4 := by omega
  rw [bytesForSigning, PublicKey.marshal_eq_written, bind_eq_bind, bind_some, hout,
    if_neg hlong, hlen, Nat.add_sub_cancel, List.take_left]
  rfl

/-- The keys and certificates as `Marshal` writes them: minimal numbers, the curve that the
algorithm names, no option whose value is the empty string, and a signing key in that form. -/
inductive Canonical (E : Elliptic) : Bytes → Prop
  | plain {a : KeyAlgo} {b rest : Bytes} {key : RawKey} :
    parseString b = some (ascii a.name, rest) → parsePlainKey E rest a = .ok (key, []) →
    key.algo = a → FieldsCanonical a.wire rest → Canonical E b
  | cert {a : KeyAlgo} {b nonce rest rest₁ rest₂ : Bytes} {key : RawKey}
      {g : Vals genericCertData.fields} :
    parseString b = some (ascii a.certName, rest) → parseString rest = some (nonce, rest₁) →
    parsePlainKey E rest₁ a = .ok (key, rest₂) → unmarshal genericCertData rest₂ = .ok g →
    key.algo = a → FieldsCanonical a.wire rest₁ →
    StringFits (ascii key.algo.name) (key.fields E) → TuplesCanonical (certCriticalOptions g) →
    TuplesCanonical (certExtensions g) → Canonical E (certSignatureKey g) → Canonical E b

theorem KeyAlgo.name_ne_certName (a a' : KeyAlgo) : ascii a.name ≠ ascii a'.certName := by
  intro h
  have hn := ofName_name a
  rw [h, ofName_certName] at hn
  cases hn

theorem canonical_plain_iff (hp : parseString b = some (ascii (KeyAlgo.name a), rest))
    (hk : parsePlainKey E rest a = .ok (key, [])) :
    Canonical E b ↔ key.algo = a ∧ FieldsCanonical a.wire rest := by
  constructor
  · intro h
    cases h with
    | plain hp' hk' ha hc =>
      obtain ⟨hname, rfl⟩ := mk.inj (some.inj (hp.symm.trans hp'))
      obtain rfl := KeyAlgo.name_inj hname
      cases hk.symm.trans hk'
      exact ⟨ha, hc⟩
    | cert hp' =>
      obtain ⟨hname, -⟩ := mk.inj (some.inj (hp.symm.trans hp'))
      exact absurd hname (KeyAlgo.name_ne_certName _ _)
  · rintro ⟨ha, hc⟩
    exact .plain hp hk ha hc

theorem canonical_cert_iff (hp : parseString b = some (ascii (KeyAlgo.certName a), rest))
    (hn : parseString rest = some (nonce, rest₁))
    (hk : parsePlainKey E rest₁ a = .ok (key, rest₂))
    (hg : unmarshal genericCertData rest₂ = .ok g) :
    Canonical E b ↔ key.algo = a ∧ FieldsCanonical a.wire rest₁ ∧
      StringFits (ascii key.algo.name) (key.fields E) ∧ TuplesCanonical (certCriticalOptions g) ∧
      TuplesCanonical (certExtensions g) ∧ Canonical E (certSignatureKey g) := by
  constructor
  · intro h
    cases h with
    | plain hp' =>
      obtain ⟨hname, -⟩ := mk.inj (some.inj (hp.symm.trans hp'))
      exact absurd hname.symm (KeyAlgo.name_ne_certName _ _)
    | cert hp' hn' hk' hg' ha hc hf h₁ h₂ h₃ =>
      obtain ⟨hname, rfl⟩ := mk.inj (some.inj (hp.symm.trans hp'))
      obtain rfl := KeyAlgo.certName_inj hname
      cases hn.symm.trans hn'
      cases hk.symm.trans hk'
      cases hg.symm.trans hg'
      exact ⟨ha, hc, hf, h₁, h₂, h₃⟩
  · rintro ⟨ha, hc, hf, h₁, h₂, h₃⟩
    exact .cert hp hn hk hg ha hc hf h₁ h₂ h₃

theorem parseCert_eq_ok (h : parseCert E input a parseKey = .ok k) :
    ∃ nonce rest₁ key rest₂ g c signatureKey hlt,
      parseString input = some (nonce, rest₁) ∧ parsePlainKey E rest₁ a = .ok (key, rest₂) ∧
      parseKey (certSignatureKey g) hlt = .ok signatureKey ∧
      GenericRead nonce key rest₂ g c ∧ k = .cert c signatureKey := by
  unfold parseCert at h
  split at h
  · cases h
  rename_i nonce rest₁ hn
  split at h
  · cases h
  rename_i key rest₂ hk
  split at h
  · cases h
  rename_i g hg
  obtain ⟨c, hc, h⟩ := except_bind_eq_ok.mp h
  obtain ⟨signatureKey, hsk, h⟩ := except_bind_eq_ok.mp h
  split at h
  · rename_i sig hs
    cases h
    exact ⟨nonce, rest₁, key, rest₂, g, _, signatureKey, _, hn, hk, hsk,
      genericRead_of_parseCertData hg hc hs, rfl⟩
  · cases h

theorem parsePublicKey_eq_ok (h : parsePublicKey E b = .ok k) :
    (∃ a rest key, parseString b = some (ascii (KeyAlgo.name a), rest) ∧
      parsePlainKey E rest a = .ok (key, []) ∧ k = .raw key) ∨
    ∃ a rest, parseString b = some (ascii (KeyAlgo.certName a), rest) ∧
      parseCert E rest a (fun b _ => parsePublicKey E b) = .ok k := by
  rw [parsePublicKey] at h
  split at h
  · cases h
  rename_i algo rest hp
  obtain ⟨⟨key, junk⟩, hkey, h⟩ := except_bind_eq_ok.mp h
  dsimp only at h
  split at h
  · cases h
  rename_i hjunk
  cases h
  obtain rfl : junk = [] := List.length_eq_zero_iff.mp (Nat.eq_zero_of_not_pos hjunk)
  unfold parsePubKey at hkey
  split at hkey
  · rename_i a ha
    obtain ⟨⟨key, rest'⟩, hplain, hkey⟩ := except_bind_eq_ok.mp hkey
    cases hkey
    rw [KeyAlgo.eq_of_ofName ha] at hp
    exact .inl ⟨a, rest, key, hp, hplain, rfl⟩
  · split at hkey
    · rename_i a ha
      obtain ⟨_, hcert, hkey⟩ := except_bind_eq_ok.mp hkey
      cases hkey
      rw [KeyAlgo.eq_of_ofCertName ha] at hp
      exact .inr ⟨a, rest, hp, hcert⟩
    · cases hkey

theorem KeyAlgo.length_certName_lt (a : KeyAlgo) : (ascii a.certName).length < 2 ^ 32 := by
  cases a <;> decide +kernel

theorem written_plain_iff (hE : E.Exact) (hp : parseString b = some (ascii (KeyAlgo.name a), rest))
    (hk : parsePlainKey E rest a = .ok (key, [])) :
    (PublicKey.raw key).written E = b ↔ Canonical E b := by
  rw [canonical_plain_iff hp hk, PublicKey.written,
    encodeString_append_iff hp key.algo.length_name_lt]
  rw [← append_nil (key.fields E), (plainRead_of_parsePlainKey hE hk).reads.encode_iff]
  constructor
  · rintro ⟨hname, hc, -⟩
    exact ⟨KeyAlgo.name_inj hname, hc⟩
  · rintro ⟨rfl, hc⟩
    exact ⟨rfl, hc, rfl⟩

theorem written_cert_iff (hE : E.Exact)
    (hp : parseString b = some (ascii (KeyAlgo.certName a), rest))
    (hn : parseString rest = some (nonce, rest₁))
    (hk : parsePlainKey E rest₁ a = .ok (key, rest₂)) (hg : GenericRead nonce key rest₂ g c)
    (ih : k.written E = certSignatureKey g ↔ Canonical E (certSignatureKey g))
    (hle : (k.written E).length ≤ (certSignatureKey g).length) :
    (PublicKey.cert c k).written E = b ↔ Canonical E b := by
  obtain rfl := hg.key_eq
  obtain rfl := hg.nonce_eq
  have hnonce := (length_of_parseString hn).1
  rw [canonical_cert_iff hp hn hk hg.read, PublicKey.written,
    encodeString_append_iff hp c.key.algo.length_certName_lt, encodeString_append_iff hn hnonce,
    ← ih]
  by_cases hf : StringFits (ascii c.key.algo.name) (c.key.fields E)
  · rw [certKeyBytes, if_pos hf, (plainRead_of_parsePlainKey hE hk).reads.encode_iff,
      hg.encodeGeneric_iff hle]
    constructor
    · rintro ⟨hname, -, hc, h₁, h₂, h₃⟩
      exact ⟨KeyAlgo.certName_inj hname, hc, hf, h₁, h₂, h₃⟩
    · rintro ⟨rfl, hc, -, h₁, h₂, h₃⟩
      exact ⟨rfl, rfl, hc, h₁, h₂, h₃⟩
  · -- without the key there are fewer bytes than were read
    rw [certKeyBytes, if_neg hf, List.nil_append]
    refine iff_of_false ?_ fun h => hf h.2.2.1
    rintro ⟨-, -, he⟩
    have hgen := hg.length_encodeGeneric_le hle
    have hkey := (plainRead_of_parsePlainKey hE hk).reads.length_le
    have hpos := length_fields_pos E c.key
    rw [he] at hgen
    omega

theorem length_certKeyBytes_le (E : Elliptic) (key : RawKey) :
    (certKeyBytes E key).length ≤ (key.fields E).length := by
  rw [certKeyBytes]
  split
  · exact le_rfl
  · exact Nat.zero_le _

theorem written_iff (hE : E.Exact) (h : parsePublicKey E b = .ok k) :
    (k.written E = b ↔ Canonical E b) ∧ (k.written E).length ≤ b.length := by
  induction hlen : b.length using Nat.strong_induction_on generalizing b k with
  | _ n ih =>
    subst n
    rcases parsePublicKey_eq_ok h with ⟨a, rest, key, hp, hk, rfl⟩ | ⟨a, rest, hp, hcert⟩
    · refine ⟨written_plain_iff hE hp hk, ?_⟩
      have hb := (length_of_parseString hp).2
      have hkey := (plainRead_of_parsePlainKey hE hk).reads.length_le
      have hname := (plainRead_of_parsePlainKey hE hk).name
      rw [PublicKey.written, length_append, length_encodeString]
      rw [length_nil] at hkey
      omega
    · obtain ⟨nonce, rest₁, key, rest₂, g, c, k, hlt, hn, hk, hsk, hg, rfl⟩ := parseCert_eq_ok hcert
      have hb := (length_of_parseString hp).2
      obtain ⟨hiff, hle⟩ := ih _ (by omega) hsk rfl
      refine ⟨written_cert_iff hE hp hn hk hg hiff hle, ?_⟩
      obtain rfl := hg.key_eq
      obtain rfl := hg.nonce_eq
      have hrest := (length_of_parseString hn).2
      have hkey := (plainRead_of_parsePlainKey hE hk).reads.length_le
      have hname := (plainRead_of_parsePlainKey hE hk).certName
      have hgen := hg.length_encodeGeneric_le hle
      have hfields := length_certKeyBytes_le E c.key
      simp only [PublicKey.written, length_append, length_encodeString]
      omega

theorem signature_of_parsePublicKey (hE : E.Exact) (h : parsePublicKey E b = .ok (.cert c k)) :
    ∃ front, b = front ++ encodeString c.encodeSignature := by
  rcases parsePublicKey_eq_ok h with ⟨a, rest, key, -, -, hk⟩ | ⟨a, rest, hp, hcert⟩
  · cases hk
  obtain ⟨nonce, rest₁, key, rest₂, g, c, k, -, hn, hk, -, hg, he⟩ := parseCert_eq_ok hcert
  cases he
  have hrest : encodeString c.encodeSignature <:+ rest₂ := by
    rw [← encodeFields_genericCertData hg.read, hg.signature]
    obtain ⟨serial, certType, keyId, principals, validAfter, validBefore, crit, ext, reserved,
      sigKey, sigBytes, u⟩ := g
    simp only [genericCertData, encodeFields, ← append_assoc, append_nil]
    exact List.suffix_append _ _
  have hnonce : rest₁ <:+ rest := ⟨_, eq_of_parseString hn⟩
  have hb : rest <:+ b := ⟨_, eq_of_parseString hp⟩
  have hkey := (plainRead_of_parsePlainKey hE hk).reads.suffix
  obtain ⟨front, hfront⟩ := hrest.trans (hkey.trans (hnonce.trans hb))
  exact ⟨front, hfront.symm⟩

/-- The certificates that are marshalled to the bytes they were parsed from, over which the
signature is then checked. -/
theorem marshal_parsePublicKey_iff (hE : E.Exact) (h : parsePublicKey E b = .ok (.cert c k)) :
    ((PublicKey.cert c k).marshal E = some b ↔ Canonical E b) ∧
      ∃ front, b = front ++ encodeString c.encodeSignature ∧
        (c.bytesForSigning E k = some front ↔ Canonical E b) := by
  obtain ⟨hiff, -⟩ := written_iff hE h
  obtain ⟨front, hfront⟩ := signature_of_parsePublicKey hE h
  refine ⟨?_, front, hfront, ?_⟩
  · rw [PublicKey.marshal_eq_written, some_inj]
    exact hiff
  · rw [← hiff, c.bytesForSigning_eq, some_inj, written_cert_eq, hfront,
      List.append_left_inj]

namespace PublicKey

theorem onePoint_exact : onePoint.Exact := by
  intro curve b x y h
  change (if b = [4] then some (0, 0) else none) = some (x, y) at h
  split at h
  · rename_i hb
    exact hb.symm
  · cases h

/-- An Ed25519 certificate with these critical options, signed by an RSA key. -/
def certBytes (criticalOptions : List (Bytes × Bytes)) : Bytes :=
  encodeString (ascii KeyAlgo.ed25519.certName) ++ (encodeString [1, 2, 3] ++
    (encodeString (List.replicate 32 7) ++
      encodeFields genericCertData.fields ((1 : UInt64), (1 : UInt32), ascii "id",
        encodeString (ascii "root"), (0 : UInt64), (0 : UInt64), encodeEntries criticalOptions, [],
        [], encodeString (ascii "ssh-rsa") ++ (encodeString [3] ++ encodeString [15]),
        encodeString (ascii "ssh-rsa") ++ encodeString [1], ())))

def remarshals (b out : Bytes) : Bool :=
  match parsePublicKey onePoint b with
  | .ok (.cert c k) => decide ((cert c k).written onePoint = out)
  | _ => false

theorem exists_of_remarshals (b out : Bytes) (h : remarshals b out = true) :
    ∃ c k, parsePublicKey onePoint b = .ok (.cert c k) ∧ (cert c k).written onePoint = out := by
  unfold remarshals at h
  split at h
  · rename_i c k hp
    exact ⟨c, k, hp, of_decide_eq_true h⟩
  · cases h

theorem marshal_parsePublicKey_command :
    let b := certBytes [(ascii "force-command", encodeString (ascii "ls"))]
    ∃ c k, parsePublicKey onePoint b = .ok (.cert c k) ∧
      (cert c k).marshal onePoint = some b ∧ ∃ front,
        b = front ++ encodeString c.encodeSignature ∧
          c.bytesForSigning onePoint k = some front := by
  intro b
  obtain ⟨c, k, hp, hw⟩ := exists_of_remarshals b b (by decide +kernel)
  obtain ⟨hiff, front, hfront, hsigned⟩ := marshal_parsePublicKey_iff onePoint_exact hp
  have hm : (cert c k).marshal onePoint = some b := by rw [marshal_eq_written, hw]
  exact ⟨c, k, hp, hm, front, hfront, hsigned.mpr (hiff.mp hm)⟩

/-- An option with the empty string as its value is marshalled without a value, so the signature is
checked over other bytes. -/
theorem marshal_empty_option :
    let b := certBytes [(ascii "force-command", encodeString [])]
    onePoint.Exact ∧ ∃ c k, parsePublicKey onePoint b = .ok (.cert c k) ∧
      (cert c k).marshal onePoint = some (certBytes [(ascii "force-command", [])]) ∧
      (cert c k).marshal onePoint ≠ some b ∧ ∀ front, b = front ++ encodeString c.encodeSignature →
        c.bytesForSigning onePoint k ≠ some front := by
  intro b
  have hne : certBytes [(ascii "force-command", [])] ≠ b := by decide +kernel
  obtain ⟨c, k, hp, hw⟩ := exists_of_remarshals b (certBytes [(ascii "force-command", [])])
    (by decide +kernel)
  refine ⟨onePoint_exact, c, k, hp, by rw [marshal_eq_written, hw], ?_, ?_⟩
  · rw [marshal_eq_written, hw]
    exact fun h => hne (some.inj h)
  intro front hfront hsigned
  rw [c.bytesForSigning_eq, some_inj] at hsigned
  apply hne
  rw [← hw, written_cert_eq, hsigned, ← hfront]

end PublicKey
end XCryptoSsh
