import XCryptoSsh.MessagesRoundTrip

namespace XCryptoSsh
open Go
open List (append_assoc append_inj mem_cons_self)
set_option autoImplicit true

theorem putUint32_inj (hm : m < 2 ^ 32) (hn : n < 2 ^ 32) (h : putUint32 m = putUint32 n) :
    m = n := by
  have h := congrArg bigEndianUint32 h
  rwa [bigEndianUint32_putUint32 hm, bigEndianUint32_putUint32 hn] at h

theorem encodeString_append_inj (hs : s.length < 2 ^ 32) (ht : t.length < 2 ^ 32)
    (h : encodeString s ++ r = encodeString t ++ q) : s = t ∧ r = q := by
  rw [encodeString, encodeString, append_assoc, append_assoc] at h
  obtain ⟨hlen, h⟩ := append_inj h rfl
  exact append_inj h (putUint32_inj hs ht hlen)

theorem flatMap_encodeString_inj {l l' : List Bytes} (hlen : l.length = l'.length)
    (hl : ∀ b ∈ l, b.length < 2 ^ 32) (hl' : ∀ b ∈ l', b.length < 2 ^ 32)
    (h : l.flatMap encodeString = l'.flatMap encodeString) : l = l' := by
  induction l generalizing l' with
  | nil => exact (List.length_eq_zero_iff.mp hlen.symm).symm
  | cons b l ih =>
    cases l' with
    | nil => cases hlen
    | cons b' l' =>
      rw [List.flatMap_cons, List.flatMap_cons] at h
      obtain ⟨rfl, hrest⟩ :=
        encodeString_append_inj (hl b mem_cons_self) (hl' b' mem_cons_self) h
      rw [ih (Nat.succ.inj hlen) (fun c hc => hl c (.tail b hc)) (fun c hc => hl' c (.tail b hc))
        hrest]

theorem intContents_inj (h : intContents m = intContents n) : m = n := by
  have h := congrArg intOfContents h
  rwa [intOfContents_intContents, intOfContents_intContents] at h

theorem encodeInt_append_inj (hm : (intContents m).length < 2 ^ 32)
    (hn : (intContents n).length < 2 ^ 32)
    (h : encodeString (intContents m) ++ r = encodeString (intContents n) ++ q) :
      m = n ∧ r = q := by
  obtain ⟨h, hr⟩ := encodeString_append_inj hm hn h
  exact ⟨intContents_inj h, hr⟩

def Kind.delimited : Kind → Bool
  | .rest | .names => false
  | _ => true

def Kind.Short (k : Kind) (v : k.Val) : Prop := ∀ c, k.contents v = some c → c.length < 2 ^ 32

theorem Kind.short_of_contents {k : Kind} {v : k.Val} (h : k.contents v = some b)
    (hb : b.length < 2 ^ 32) : k.Short v := by
  intro c hc
  cases h.symm.trans hc
  exact hb

theorem Kind.encode_append_inj {k : Kind} {v w : k.Val} (hk : k.delimited = true) (hv : k.Short v)
    (hw : k.Short w) (h : k.encode v ++ r = k.encode w ++ q) : v = w ∧ r = q := by
  cases k with
  | bool =>
    obtain ⟨h, hr⟩ := append_inj h rfl
    refine ⟨?_, hr⟩
    cases v <;> cases w <;> first | rfl | cases h
  | array n =>
    obtain ⟨h, hr⟩ := append_inj h (v.property.trans w.property.symm)
    exact ⟨Subtype.ext h, hr⟩
  | uint8 =>
    obtain ⟨h, hr⟩ := append_inj h rfl
    exact ⟨List.singleton_inj.mp h, hr⟩
  | uint32 =>
    obtain ⟨h, hr⟩ := append_inj h rfl
    exact ⟨UInt32.toNat_inj.mp (putUint32_inj v.toNat_lt w.toNat_lt h), hr⟩
  | uint64 =>
    obtain ⟨h, hr⟩ := append_inj h rfl
    have h : bigEndianUint64 (putUint64 (v : UInt64).toNat) =
        bigEndianUint64 (putUint64 (w : UInt64).toNat) := congrArg bigEndianUint64 h
    rw [bigEndianUint64_putUint64 v.toNat_lt, bigEndianUint64_putUint64 w.toNat_lt] at h
    exact ⟨UInt64.toNat_inj.mp h, hr⟩
  | string | bytes => exact encodeString_append_inj (hv v rfl) (hw w rfl) h
  | bigInt => exact encodeInt_append_inj (hv _ rfl) (hw _ rfl) h
  | names => cases hk
  | rest => cases hk

def FieldsShort : (fs : List Field) → Vals fs → Prop
  | [], _ => True
  | f :: fs, (v, vs) => f.kind.Short v ∧ FieldsShort fs vs

theorem encodeFields_append_inj {fs : List Field} {vs ws : Vals fs}
    (hd : ∀ f ∈ fs, f.kind.delimited = true) (hv : FieldsShort fs vs) (hw : FieldsShort fs ws)
    (h : encodeFields fs vs ++ r = encodeFields fs ws ++ q) : vs = ws ∧ r = q := by
  induction fs with
  | nil => exact ⟨rfl, h⟩
  | cons f fs ih =>
    obtain ⟨v, vs⟩ := vs
    obtain ⟨w, ws⟩ := ws
    simp only [encodeFields, append_assoc] at h
    obtain ⟨rfl, hrest⟩ := Kind.encode_append_inj (hd f mem_cons_self) hv.1 hw.1 h
    obtain ⟨rfl, hr⟩ := ih (fun g hg => hd g (.tail f hg)) hv.2 hw.2 hrest
    exact ⟨rfl, hr⟩

theorem StructType.encode_inj {t : StructType} {m n : Vals t.fields}
    (hd : ∀ f ∈ t.fields, f.kind.delimited = true) (hm : FieldsShort t.fields m)
    (hn : FieldsShort t.fields n) (h : t.encode m = t.encode n) : m = n := by
  rw [encode, encode, List.append_right_inj] at h
  refine (encodeFields_append_inj hd hm hn (r := []) (q := []) ?_).1
  rw [h]

theorem eq_of_parseString_encodeString (hs : s.length < 2 ^ 32)
    (h : parseString (encodeString s ++ rest) = some (s', rest')) : s' = s ∧ rest' = rest := by
  rw [parseString_encodeString, u32_of_lt hs] at h
  split at h
  · cases h
  · obtain ⟨rfl, rfl⟩ := Prod.mk.inj (Option.some.inj h)
    exact ⟨List.take_left, List.drop_left⟩

theorem Kind.eq_of_unmarshal_encode {k : Kind} {v w : k.Val} (hk : k ≠ .names) (hv : k.Short v)
    (hr : k = .rest → after = []) (h : k.unmarshal e (k.encode v ++ after) = .ok (w, r)) :
    w = v ∧ r = after := by
  cases k with
  | names => exact absurd rfl hk
  | string | bytes => exact eq_of_parseString_encodeString (hv v rfl) (orErr_eq_ok.mp h)
  | bigInt =>
    obtain ⟨contents, hs, rfl⟩ := parseInt_eq_some (orErr_eq_ok.mp h)
    obtain ⟨rfl, rfl⟩ := eq_of_parseString_encodeString (hv _ rfl) hs
    exact ⟨intOfContents_intContents v, rfl⟩
  | bool | array | uint8 | uint32 | uint64 | rest =>
    have hf : Kind.Fits _ v after := nofun
    have hu := Kind.unmarshal_encode (v := v) trivial hf hr e
    cases hu.symm.trans h
    exact ⟨rfl, rfl⟩

theorem eq_of_unmarshalFields_encodeFields {fs : List Field} {vs ws : Vals fs}
    (hn : ∀ f ∈ fs, f.kind ≠ .names) (hl : ∀ g ∈ fs.dropLast, g.kind ≠ .rest)
    (hv : FieldsShort fs vs) (h : unmarshalFields name fs (encodeFields fs vs) = .ok (ws, r)) :
    ws = vs := by
  induction fs with
  | nil => rfl
  | cons f fs ih =>
    obtain ⟨v, vs⟩ := vs
    obtain ⟨w, ws⟩ := ws
    obtain ⟨hlast, hl⟩ := rest_last_cons hl
    have hafter : f.kind = .rest → encodeFields fs vs = [] := by
      intro hf
      have hfs := hlast hf
      subst fs
      rfl
    obtain ⟨d, h₁, h₂⟩ := unmarshalFields_cons_eq_ok.mp h
    obtain ⟨hw, rfl⟩ := Kind.eq_of_unmarshal_encode (hn f mem_cons_self) hv.1 hafter h₁
    exact Prod.ext hw (ih (fun g hg => hn g (.tail f hg)) hl hv.2 h₂)

theorem StructType.eq_of_unmarshal_encode {t : StructType} {m n : Vals t.fields}
    (hn : ∀ f ∈ t.fields, f.kind ≠ .names) (hm : FieldsShort t.fields m)
    (h : unmarshal t (t.encode m) = .ok n) : n = m := by
  obtain ⟨-, body, hb, hdata⟩ := unmarshal_eq_ok.mp h
  have hbody : body = encodeFields t.fields m := by
    rw [encode] at hdata
    obtain ⟨htags, hdata⟩ | ⟨x, hx, -, hdata⟩ := hdata
    · rw [htags] at hdata
      exact hdata.symm
    cases htags : t.tags with
    | nil =>
      rw [htags] at hx
      cases hx
    | cons y ys =>
      rw [htags] at hdata
      exact (List.cons.inj hdata).2.symm
  rw [hbody] at hb
  exact eq_of_unmarshalFields_encodeFields hn t.rest_last hm hb

end XCryptoSsh
