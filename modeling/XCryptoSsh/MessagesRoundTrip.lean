import XCryptoSsh.Messages

namespace XCryptoSsh
open Go Option
open List (append_assoc take_left' drop_left' length_append take_left length_cons mem_cons_self
  map_cons length_map length_replicate cons_ne_nil)
set_option autoImplicit true

def encodeString (s : Bytes) : Bytes := putUint32 s.length ++ s

@[simp] theorem length_encodeString (s : Bytes) : (encodeString s).length = 4 + s.length := by
  simp [encodeString]

theorem putUint32_u32 (n : Nat) : putUint32 (u32 n) = putUint32 n := by
  have h (k : Nat) (hk : k ≤ 24) : UInt8.ofNat (u32 n / 2 ^ k) = UInt8.ofNat (n / 2 ^ k) := by
    apply UInt8.toNat_inj.mp
    rw [UInt8.toNat_ofNat', UInt8.toNat_ofNat', u32]
    have hp : 2 ^ 32 = 2 ^ k * 2 ^ (32 - k) := by
      rw [← pow_add]
      congr 1
      omega
    rw [hp, Nat.mod_mul_right_div_self]
    exact Nat.mod_mod_of_dvd _ (pow_dvd_pow 2 (by omega : 8 ≤ 32 - k))
  have h₀ := h 0 (by omega)
  rw [pow_zero, Nat.div_one, Nat.div_one] at h₀
  rw [putUint32, h 24 (by omega), h 16 (by omega), h 8 (by omega), h₀, putUint32]

def StringFits (s rest : Bytes) : Prop :=
  s.length < 2 ^ 32 ∧ s.length ≤ u32 (s.length + rest.length)

theorem parseString_encodeString (s rest : Bytes) :
    parseString (encodeString s ++ rest) =
      if u32 (s.length + rest.length) < u32 s.length then none
      else some ((s ++ rest).take (u32 s.length), (s ++ rest).drop (u32 s.length)) := by
  have htake : (encodeString s ++ rest).take 4 = putUint32 s.length := by
    rw [encodeString, append_assoc]
    exact take_left' (length_putUint32 _)
  have hdrop : (encodeString s ++ rest).drop 4 = s ++ rest := by
    rw [encodeString, append_assoc]
    exact drop_left' (length_putUint32 _)
  have hlen : ¬ (encodeString s ++ rest).length < 4 := by
    rw [length_append, length_encodeString]
    omega
  rw [parseString, if_neg hlen, htake, hdrop, bigEndianUint32_putUint32_u32]
  dsimp only
  rw [length_append]

theorem parseString_of_fits (h : StringFits s rest) :
    parseString (encodeString s ++ rest) = some (s, rest) := by
  rw [parseString_encodeString, u32_of_lt h.1, if_neg (Nat.not_lt.mpr h.2), take_left,
    List.drop_left]

theorem parseInt_eq_some (h : parseInt data = some (v, r)) :
    ∃ contents, parseString data = some (contents, r) ∧ intOfContents contents = v := by
  rw [parseInt] at h
  split at h
  · cases h
  rename_i contents rest hs
  cases h
  exact ⟨contents, hs, rfl⟩

theorem fits_of_parseString (h : parseString (encodeString s ++ rest) = some (s', rest'))
    (hle : s.length ≤ s'.length) : StringFits s rest ∧ s' = s ∧ rest' = rest := by
  rw [parseString_encodeString] at h
  split at h
  · cases h
  rename_i hlt
  obtain ⟨rfl, rfl⟩ := Prod.mk.inj (some.inj h)
  have hs : s.length < 2 ^ 32 := by
    have hm : u32 s.length < 2 ^ 32 := Nat.mod_lt _ (by norm_num)
    rw [List.length_take] at hle
    omega
  rw [u32_of_lt hs] at hlt ⊢
  exact ⟨⟨hs, Nat.le_of_not_lt hlt⟩, take_left, List.drop_left⟩

theorem length_of_parseString (h : parseString input = some (s, rest)) :
    s.length < 2 ^ 32 ∧ input.length = 4 + s.length + rest.length := by
  unfold parseString at h
  split at h
  · cases h
  rename_i hlen
  dsimp only at h
  split at h
  · cases h
  rename_i hfit
  obtain ⟨rfl, rfl⟩ := Prod.mk.inj (some.inj h)
  have hlt := bigEndianUint32_lt (List.length_take_of_le (Nat.le_of_not_lt hlen))
  have hle : u32 (input.drop 4).length ≤ (input.drop 4).length := Nat.mod_le _ _
  simp only [List.length_take, List.length_drop] at hle hfit ⊢
  omega

theorem appendNames_eq (out : Bytes) (names : List Bytes) :
    appendNames out names = out ++ [comma].intercalate names := by
  cases names with
  | nil => simp [appendNames]
  | cons name names =>
    rw [appendNames]
    induction names generalizing out name with
    | nil => simp
    | cons next names ih =>
      rw [List.foldl_cons, ih (out ++ name ++ [comma]) next, List.intercalate_cons_cons]
      simp

theorem marshalNameList_eq (out : Bytes) (names : List Bytes) :
    marshalNameList out names = out ++ encodeString ([comma].intercalate names) := by
  unfold marshalNameList
  cases names with
  | nil => simp [encodeString]
  | cons name names =>
    have hout : appendNames (out ++ putUint32 0) (name :: names) =
        out ++ (putUint32 0 ++ [comma].intercalate (name :: names)) := by
      rw [appendNames_eq, append_assoc]
    have hdrop : (out ++ (putUint32 0 ++ [comma].intercalate (name :: names))).drop
        (out.length + 4) = [comma].intercalate (name :: names) := by
      rw [← append_assoc]
      exact drop_left' (by simp)
    have hlen : (out ++ (putUint32 0 ++ [comma].intercalate (name :: names))).length -
        out.length - 4 = ([comma].intercalate (name :: names)).length := by
      rw [length_append, length_append, length_putUint32]
      omega
    simp only [length_cons, gt_iff_lt, Nat.zero_lt_succ, if_true, hout, hdrop, hlen,
      take_left, putUint32_u32, encodeString, append_assoc]

def NamesClean (names : List Bytes) : Prop := (∀ n ∈ names, comma ∉ n) ∧ names ≠ [[]]

theorem intercalate_eq_nil (h : NamesClean names) :
    [comma].intercalate names = [] ↔ names = [] := by
  constructor
  · intro he
    cases names with
    | nil => rfl
    | cons name names =>
      cases names with
      | nil =>
        rw [List.intercalate_singleton] at he
        exact absurd (congrArg (fun n => [n]) he) h.2
      | cons next names =>
        rw [List.intercalate_cons_cons] at he
        simp at he
  · rintro rfl
    rfl

theorem notMem_of_mem_splitOn (b : Bytes) : ∀ n ∈ b.splitOn comma, comma ∉ n := by
  induction b with
  | nil => simp [List.splitOn]
  | cons x b ih =>
    intro n hn
    rw [List.splitOn, List.splitOnP_cons_eq_if_modifyHead] at hn
    split at hn
    · rcases List.mem_cons.mp hn with rfl | hn
      · exact List.not_mem_nil
      · exact ih n hn
    rename_i hx
    rw [List.splitOn] at ih
    cases hs : List.splitOnP (fun y => y == comma) b with
    | nil =>
      rw [hs] at hn
      cases hn
    | cons m ms =>
      rw [hs] at hn ih
      rcases List.mem_cons.mp hn with rfl | hn
      · intro hm
        rcases List.mem_cons.mp hm with rfl | hm
        · exact hx (beq_self_eq_true _)
        · exact ih m mem_cons_self hm
      · exact ih n (List.mem_cons_of_mem _ hn)

theorem length_le_intercalate {names : List Bytes} (h : n ∈ names) :
    n.length ≤ ([comma].intercalate names).length := by
  induction names with
  | nil => cases h
  | cons name names ih =>
    cases names with
    | nil =>
      rw [List.mem_singleton.mp h, List.intercalate_singleton]
    | cons next names =>
      rw [List.intercalate_cons_cons, length_append, length_append]
      rcases List.mem_cons.mp h with rfl | h
      · omega
      · have hle := ih h
        omega

theorem namesClean_splitOn (h : b ≠ []) : NamesClean (b.splitOn comma) := by
  refine ⟨notMem_of_mem_splitOn b, fun he => h ?_⟩
  have hb : [comma].intercalate (b.splitOn comma) = b := List.intercalate_splitOn comma
  rw [← hb, he, List.intercalate_singleton]

def intContents (n : Int) : Bytes := (intBytes n).1 ++ (intBytes n).2

theorem intContents_pos (h : 0 < n) :
    intContents n = if bitLen n.toNat % 8 = 0 then 0 :: natBytes n.toNat else natBytes n.toNat := by
  have hneg : ¬ n < 0 := by omega
  have hzero : n ≠ 0 := by omega
  rw [intContents, intBytes, if_neg hneg, if_neg hzero]
  cases hb : natBytes n.toNat with
  | nil =>
    have hn := setBytes_natBytes n.toNat
    rw [hb, setBytes_nil] at hn
    omega
  | cons x b =>
    have hx : x &&& 0x80 ≠ 0 ↔ bitLen n.toNat % 8 = 0 := by
      rw [← head_natBytes hb, Ne, and_signBit_eq_zero, Nat.not_lt]
    simp only [hx]
    split
    · rfl
    · rfl

theorem intContents_neg (h : n < 0) :
    intContents n = (if bitLen (-n - 1).toNat % 8 = 0 then 0 :: natBytes (-n - 1).toNat
      else natBytes (-n - 1).toNat).map fun b => b ^^^ 0xff := by
  rw [intContents, intBytes, if_pos h]
  cases hb : natBytes (-n - 1).toNat with
  | nil =>
    have hn := setBytes_natBytes (-n - 1).toNat
    rw [hb, setBytes_nil] at hn
    rw [← hn]
    rfl
  | cons x b =>
    have hx : (x ^^^ 0xff) &&& 0x80 = 0 ↔ bitLen (-n - 1).toNat % 8 = 0 := by
      have hlt := x.toNat_lt
      have hnot : ~~~(x ^^^ 0xff) = x := not_xor_ones x
      have hval := toNat_not (x ^^^ 0xff)
      have hlt' := (x ^^^ 0xff).toNat_lt
      rw [hnot] at hval
      rw [← head_natBytes hb, and_signBit_eq_zero]
      omega
    simp only [map_cons, hx]
    split
    · rfl
    · rfl

theorem length_intContents (n : Int) : 4 + (intContents n).length = intLength n := by
  unfold intLength
  rcases lt_trichotomy n 0 with h | rfl | h
  · rw [intContents_neg h, if_pos h, length_map]
    dsimp only
    split
    · rw [length_cons, length_natBytes]
      omega
    · rw [length_natBytes]
  · rfl
  · have hneg : ¬ n < 0 := by omega
    have hzero : n ≠ 0 := by omega
    rw [intContents_pos h, if_neg hneg, if_neg hzero]
    dsimp only
    split
    · rw [length_cons, length_natBytes]
      omega
    · rw [length_natBytes]

theorem marshalInt_of_le (h : intLength n ≤ dst.length) :
    marshalInt dst n = some (encodeString (intContents n) ++ dst.drop (intLength n)) := by
  have hlen := length_intContents n
  have hsplit : (intContents n).length = (intBytes n).1.length + (intBytes n).2.length :=
    length_append
  have hok : ¬ dst.length < 4 + (intBytes n).1.length := by omega
  have htake : (intBytes n).2.take (dst.length - 4 - (intBytes n).1.length) = (intBytes n).2 :=
    List.take_of_length_le (by omega)
  rw [marshalInt]
  dsimp only
  rw [if_neg hok, htake, ← hlen]
  rfl

theorem marshalInt_eq (n : Int) :
    marshalInt (List.replicate (intLength n) 0) n = some (encodeString (intContents n)) := by
  rw [marshalInt_of_le (by rw [List.length_replicate]), List.drop_eq_nil_of_le (by simp),
    List.append_nil]

theorem intOfContents_of_lt (h : x.toNat < 128) :
    intOfContents (x :: b) = setBytes (x :: b) := by
  have hx : x &&& 0x80 ≠ 0x80 := by
    rw [Ne, and_signBit]
    omega
  rw [intOfContents, if_neg hx]

theorem intOfContents_of_le (h : 128 ≤ x.toNat) :
    intOfContents (x :: b) = -((setBytes ((x :: b).map fun b => ~~~b) : Int) + 1) := by
  rw [intOfContents, if_pos ((and_signBit x).mpr h)]

theorem exists_signed_natBytes (m : Nat) :
    ∃ b, setBytes b = m ∧
      b = (if bitLen m % 8 = 0 then 0 :: natBytes m else natBytes m) ∧
      ∃ x b', b = x :: b' ∧ x.toNat < 128 := by
  by_cases h : bitLen m % 8 = 0
  · exact ⟨0 :: natBytes m, by simp, (if_pos h).symm, 0, natBytes m, rfl, by decide⟩
  refine ⟨natBytes m, setBytes_natBytes m, (if_neg h).symm, ?_⟩
  cases hb : natBytes m with
  | nil =>
    have hm := setBytes_natBytes m
    rw [hb, setBytes_nil] at hm
    subst m
    exact absurd rfl h
  | cons x b =>
    refine ⟨x, b, rfl, ?_⟩
    have hx := head_natBytes hb
    omega

theorem intOfContents_intContents (n : Int) : intOfContents (intContents n) = n := by
  rcases lt_trichotomy n 0 with h | rfl | h
  · obtain ⟨b, hb, he, x, b', rfl, hx⟩ := exists_signed_natBytes (-n - 1).toNat
    have htop : 128 ≤ (x ^^^ 0xff).toNat := by
      have hval := toNat_not (x ^^^ 0xff)
      rw [not_xor_ones] at hval
      omega
    rw [intContents_neg h, ← he, map_cons, intOfContents_of_le htop]
    change -((setBytes (((x :: b').map fun b => b ^^^ 0xff).map fun b => ~~~b) : Int) + 1) = n
    rw [List.map_map]
    have hid : ((fun b : UInt8 => ~~~b) ∘ fun b => b ^^^ 0xff) = id := by
      funext y
      exact not_xor_ones y
    rw [hid, List.map_id, hb]
    omega
  · rfl
  · obtain ⟨b, hb, he, x, b', rfl, hx⟩ := exists_signed_natBytes n.toNat
    rw [intContents_pos h, ← he, intOfContents_of_lt hx, hb]
    omega

theorem length_intContents_le (b : Bytes) :
    (intContents (intOfContents b)).length ≤ b.length := by
  have hlen := length_intContents (intOfContents b)
  cases b with
  | nil => exact le_rfl
  | cons x b =>
    have key (m : Nat) (hm : m < 128 * 256 ^ b.length) : bitLen m ≤ 8 * b.length + 7 := by
      apply Nat.size_le.mpr
      have hp : 2 ^ (8 * b.length + 7) = 128 * 256 ^ b.length := by
        rw [pow_add, pow_mul]
        ring
      rwa [hp]
    have hb := setBytes_lt b
    by_cases hx : x.toNat < 128
    · rw [intOfContents_of_lt hx] at hlen ⊢
      have hm : setBytes (x :: b) < 128 * 256 ^ b.length := by
        rw [setBytes_cons]
        nlinarith
      have hsize := key _ hm
      unfold intLength at hlen
      have hneg : ¬ ((setBytes (x :: b) : Nat) : Int) < 0 := by omega
      rw [if_neg hneg, Int.toNat_natCast] at hlen
      rw [length_cons]
      dsimp only at hlen
      split_ifs at hlen <;> omega
    · have hx' : 128 ≤ x.toNat := by omega
      rw [intOfContents_of_le hx'] at hlen ⊢
      have hm : setBytes ((x :: b).map fun b => ~~~b) < 128 * 256 ^ b.length := by
        have hnot := setBytes_lt (b.map fun b => ~~~b)
        rw [length_map] at hnot
        rw [map_cons, setBytes_cons, toNat_not, length_map]
        have hle : 255 - x.toNat ≤ 127 := by omega
        have hmul := Nat.mul_le_mul_right (256 ^ b.length) hle
        omega
      have hsize := key _ hm
      generalize setBytes ((x :: b).map fun b => ~~~b) = m at hlen hsize ⊢
      unfold intLength at hlen
      have hneg : -((m : Int) + 1) < 0 := by omega
      have hmag : (-(-((m : Int) + 1)) - 1).toNat = m := by omega
      rw [if_pos hneg, hmag] at hlen
      rw [length_cons]
      dsimp only at hlen
      split_ifs at hlen <;> omega

def Kind.contents : (k : Kind) → k.Val → Option Bytes
  | .string, (s : Bytes) => some s
  | .bytes, (b : Bytes) => some b
  | .names, (ns : List Bytes) => some ([comma].intercalate ns)
  | .bigInt, (n : Int) => some (intContents n)
  | .bool, _ | .array _, _ | .uint8, _ | .uint32, _ | .uint64, _ | .rest, _ => none

def Kind.encode : (k : Kind) → k.Val → Bytes
  | .bool, (v : Bool) => [if v then 1 else 0]
  | .array _, v => v.val
  | .uint8, (v : UInt8) => [v]
  | .uint32, (v : UInt32) => putUint32 v.toNat
  | .uint64, (v : UInt64) => putUint64 v.toNat
  | .string, (s : Bytes) => encodeString s
  | .bytes, (b : Bytes) => encodeString b
  | .names, (ns : List Bytes) => encodeString ([comma].intercalate ns)
  | .bigInt, (n : Int) => encodeString (intContents n)
  | .rest, (b : Bytes) => b

theorem Kind.marshal_eq (k : Kind) (v : k.Val) (out : Bytes) :
    k.marshal out v = some (out ++ k.encode v) := by
  have hs (s : Bytes) : out ++ putUint32 (u32 s.length) ++ s = out ++ encodeString s := by
    rw [putUint32_u32, encodeString, append_assoc]
  cases k with
  | bool | array | uint8 | uint32 | uint64 | rest => rfl
  | string | bytes => exact congrArg some (hs v)
  | names => exact congrArg some (marshalNameList_eq out v)
  | bigInt => exact congrArg (Option.map fun b => out ++ b) (marshalInt_eq v)

/-- The strings are shorter than 2^32 bytes, and a name list is one that the format can hold. -/
def Kind.Admits : (k : Kind) → k.Val → Prop
  | .string, (s : Bytes) => s.length < 2 ^ 32
  | .bytes, (b : Bytes) => b.length < 2 ^ 32
  | .names, (ns : List Bytes) => (∀ n ∈ ns, n.length < 2 ^ 32) ∧ NamesClean ns
  | .bool, _ | .array _, _ | .uint8, _ | .uint32, _ | .uint64, _ | .bigInt, _ | .rest, _ => True

def Kind.Fits (k : Kind) (v : k.Val) (after : Bytes) : Prop :=
  ∀ c, k.contents v = some c → StringFits c after

theorem parseNameList_of_fits (h : NamesClean ns)
    (hf : StringFits ([comma].intercalate ns) after) :
    parseNameList (encodeString ([comma].intercalate ns) ++ after) = some (ns, after) := by
  rw [parseNameList, parseString_of_fits hf]
  dsimp only
  by_cases hn : ns = []
  · subst ns
    rfl
  have hne : ([comma].intercalate ns).length ≠ 0 := by
    rw [Ne, List.length_eq_zero_iff, intercalate_eq_nil h]
    exact hn
  rw [if_neg hne, List.splitOn_intercalate comma h.1 hn]

theorem intercalate_parseNameList (h : parseNameList data = some (ns, r)) :
    parseString data = some ([comma].intercalate ns, r) := by
  rw [parseNameList] at h
  split at h
  · cases h
  rename_i contents rest hp
  split at h
  · rename_i h0
    cases h
    rw [hp, List.length_eq_zero_iff.mp h0]
    rfl
  · cases h
    rw [hp, List.intercalate_splitOn]

theorem fits_of_parseNameList
    (h : parseNameList (encodeString ([comma].intercalate ns) ++ after) = some (ns, r)) :
    StringFits ([comma].intercalate ns) after ∧ r = after := by
  obtain ⟨hf, -, hr⟩ := fits_of_parseString (intercalate_parseNameList h) le_rfl
  exact ⟨hf, hr⟩

theorem parseInt_of_fits (hf : StringFits (intContents n) after) :
    parseInt (encodeString (intContents n) ++ after) = some (n, after) := by
  rw [parseInt, parseString_of_fits hf]
  dsimp only
  rw [intOfContents_intContents]

theorem orErr_eq_ok {o : Option α} : orErr e o = .ok a ↔ o = some a := by
  cases o with
  | none | some b => simp [orErr]

theorem Kind.unmarshal_putUint32 (v : UInt32) (after : Bytes) (e : Err) :
    Kind.uint32.unmarshal e (putUint32 v.toNat ++ after) = .ok (v, after) := by
  have hp : parseUint32 (putUint32 v.toNat ++ after) = some (v.toNat, after) := by
    rw [parseUint32, if_neg (by simp), take_left' (length_putUint32 _),
      drop_left' (length_putUint32 _), bigEndianUint32_putUint32 v.toNat_lt]
  have hv : UInt32.ofNat v.toNat = v := UInt32.ofNat_toNat
  rw [Kind.unmarshal, hp]
  exact congrArg (fun w : UInt32 => Except.ok (w, after)) hv

theorem Kind.unmarshal_putUint64 (v : UInt64) (after : Bytes) (e : Err) :
    Kind.uint64.unmarshal e (putUint64 v.toNat ++ after) = .ok (v, after) := by
  have hp : parseUint64 (putUint64 v.toNat ++ after) = some (v.toNat, after) := by
    rw [parseUint64, if_neg (by simp), take_left' (length_putUint64 _),
      drop_left' (length_putUint64 _), bigEndianUint64_putUint64 v.toNat_lt]
  have hv : UInt64.ofNat v.toNat = v := UInt64.ofNat_toNat
  rw [Kind.unmarshal, hp]
  exact congrArg (fun w : UInt64 => Except.ok (w, after)) hv

theorem Kind.unmarshal_encode {k : Kind} {v : k.Val} (ha : k.Admits v) (hf : k.Fits v after)
    (hr : k = .rest → after = []) (e : Err) :
    k.unmarshal e (k.encode v ++ after) = .ok (v, after) := by
  cases k with
  | bool =>
    cases v with
    | false => rfl
    | true => rfl
  | array n =>
    obtain ⟨b, rfl⟩ := v
    simp [Kind.unmarshal, Kind.encode]
  | uint8 => rfl
  | uint32 => exact Kind.unmarshal_putUint32 v after e
  | uint64 => exact Kind.unmarshal_putUint64 v after e
  | string | bytes => exact orErr_eq_ok.mpr (parseString_of_fits (hf _ rfl))
  | names => exact orErr_eq_ok.mpr (parseNameList_of_fits ha.2 (hf _ rfl))
  | bigInt => exact orErr_eq_ok.mpr (parseInt_of_fits (hf _ rfl))
  | rest =>
    rw [hr rfl, List.append_nil]
    rfl

theorem Kind.fits_of_unmarshal {k : Kind} {v : k.Val} (hr : k = .rest → after = [])
    (h : k.unmarshal e (k.encode v ++ after) = .ok (v, r)) : k.Fits v after ∧ r = after := by
  by_cases hc : k.contents v = none
  · -- such a field is read back whatever follows
    have hf : k.Fits v after := by
      intro c hs
      cases hc.symm.trans hs
    have ha : k.Admits v := by
      cases k with
      | string | bytes | names => cases hc
      | bool | array | uint8 | uint32 | uint64 | bigInt | rest => trivial
    rw [Kind.unmarshal_encode ha hf hr] at h
    cases h
    exact ⟨hf, rfl⟩
  · have one {c : Bytes} (hs : k.contents v = some c) (hf : StringFits c after) :
        k.Fits v after := by
      intro c' hs'
      cases hs.symm.trans hs'
      exact hf
    cases k with
    | bool | array | uint8 | uint32 | uint64 | rest => exact absurd rfl hc
    | string | bytes =>
      obtain ⟨hf, -, hr⟩ := fits_of_parseString (orErr_eq_ok.mp h) le_rfl
      exact ⟨one rfl hf, hr⟩
    | names =>
      obtain ⟨hf, hr⟩ := fits_of_parseNameList (orErr_eq_ok.mp h)
      exact ⟨one rfl hf, hr⟩
    | bigInt =>
      obtain ⟨contents, hs, rfl⟩ := parseInt_eq_some (orErr_eq_ok.mp h)
      obtain ⟨hf, -, hr⟩ := fits_of_parseString hs (length_intContents_le contents)
      exact ⟨one rfl hf, hr⟩

section

variable {k : Kind} {v : k.Val} (h : k.unmarshal e data = .ok (v, r))

include h

theorem Kind.admits_of_unmarshal :
    k.Admits v := by
  cases k with
  | bool | array | uint8 | uint32 | uint64 | bigInt | rest => trivial
  | string | bytes => exact (length_of_parseString (orErr_eq_ok.mp h)).1
  | names =>
    have hp := orErr_eq_ok.mp h
    have hlen := (length_of_parseString (intercalate_parseNameList hp)).1
    refine ⟨fun n hn => (length_le_intercalate hn).trans_lt hlen, ?_⟩
    rw [parseNameList] at hp
    split at hp
    · cases hp
    split at hp
    · cases hp
      exact ⟨by simp, by simp⟩
    · rename_i hne
      cases hp
      exact namesClean_splitOn fun h0 => hne (by rw [h0]; rfl)

theorem Kind.eq_of_unmarshal
    (hv : k.encode v = []) : r = data := by
  have len {s : Bytes} (hs : encodeString s = []) : False := by
    have hl := congrArg List.length hs
    rw [length_encodeString, List.length_nil] at hl
    omega
  cases k with
  | bool | uint8 | uint32 | uint64 => cases hv
  | string | bytes | names | bigInt => exact (len hv).elim
  | array n =>
    rw [Kind.unmarshal] at h
    split at h
    · cases h
    cases h
    have hn : n = 0 ∨ data = [] := List.take_eq_nil_iff.mp hv
    rcases hn with rfl | rfl
    · rfl
    · exact List.drop_nil
  | rest =>
    cases h
    exact hv.symm

theorem Kind.length_of_unmarshal : (k.encode v).length + r.length ≤ data.length := by
  have str {c s : Bytes} (hs : parseString data = some (s, r)) (hle : c.length ≤ s.length) :
      (encodeString c).length + r.length ≤ data.length := by
    have hlen := (length_of_parseString hs).2
    rw [length_encodeString]
    omega
  have drop {n : Nat} (hn : ¬ data.length < n) : n + (data.drop n).length ≤ data.length := by
    rw [List.length_drop]
    omega
  cases k with
  | bool | uint8 =>
    cases data with
    | nil => cases h
    | cons x data =>
      cases h
      exact le_of_eq (Nat.add_comm 1 r.length)
  | array n =>
    rw [Kind.unmarshal] at h
    split at h
    · cases h
    rename_i hn
    cases h
    exact (congrArg (· + (data.drop n).length)
      (List.length_take_of_le (Nat.le_of_not_lt hn))).trans_le
      (drop hn)
  | uint32 | uint64 =>
    simp only [Kind.unmarshal, parseUint32, parseUint64] at h
    split at h
    · cases h
    rename_i hn
    cases h
    exact drop hn
  | string | bytes => exact str (orErr_eq_ok.mp h) le_rfl
  | names => exact str (intercalate_parseNameList (orErr_eq_ok.mp h)) le_rfl
  | bigInt =>
    obtain ⟨contents, hs, rfl⟩ := parseInt_eq_some (orErr_eq_ok.mp h)
    exact str hs (length_intContents_le contents)
  | rest =>
    cases h
    exact le_rfl

end

def encodeFields : (fs : List Field) → Vals fs → Bytes
  | [], _ => []
  | f :: fs, (v, vs) => f.kind.encode v ++ encodeFields fs vs

def FieldsAdmit : (fs : List Field) → Vals fs → Prop
  | [], _ => True
  | f :: fs, (v, vs) => f.kind.Admits v ∧ FieldsAdmit fs vs

def FieldsFit : (fs : List Field) → Vals fs → Prop
  | [], _ => True
  | f :: fs, (v, vs) => f.kind.Fits v (encodeFields fs vs) ∧ FieldsFit fs vs

theorem marshalFields_eq (fs : List Field) (vs : Vals fs) (out : Bytes) :
    marshalFields fs vs out = some (out ++ encodeFields fs vs) := by
  induction fs generalizing out with
  | nil => simp [marshalFields, encodeFields]
  | cons f fs ih =>
    obtain ⟨v, vs⟩ := vs
    rw [marshalFields, Kind.marshal_eq, bind_eq_bind, bind_some, ih, encodeFields,
      append_assoc]

theorem unmarshalFields_cons_eq_ok {w : Vals (f :: fs)} :
    unmarshalFields name (f :: fs) data = .ok (w, r) ↔
      ∃ d, f.kind.unmarshal (fieldError name f.name) data = .ok (w.1, d) ∧
        unmarshalFields name fs d = .ok (w.2, r) := by
  obtain ⟨v, vs⟩ := w
  rw [unmarshalFields, except_bind_eq_ok]
  constructor
  · rintro ⟨⟨v', d⟩, hv, h⟩
    obtain ⟨⟨vs', r'⟩, hvs, h⟩ := except_bind_eq_ok.mp h
    cases h
    exact ⟨d, hv, hvs⟩
  · rintro ⟨d, hv, hvs⟩
    exact ⟨(v, d), hv, except_bind_eq_ok.mpr ⟨(vs, r), hvs, rfl⟩⟩

theorem rest_last_cons {f : Field} {fs : List Field}
    (h : ∀ g ∈ (f :: fs).dropLast, g.kind ≠ .rest) :
    (f.kind = .rest → fs = []) ∧ ∀ g ∈ fs.dropLast, g.kind ≠ .rest := by
  cases fs with
  | nil => exact ⟨fun _ => rfl, fun g hg => nomatch hg⟩
  | cons f' fs =>
    rw [List.dropLast_cons_cons] at h
    exact ⟨fun hf => absurd hf (h f mem_cons_self),
      fun g hg => h g (List.mem_cons_of_mem _ hg)⟩

theorem unmarshalFields_encodeFields_iff (name : String) {fs : List Field} {vs : Vals fs}
    (hr : ∀ g ∈ fs.dropLast, g.kind ≠ .rest) (ha : FieldsAdmit fs vs) :
    unmarshalFields name fs (encodeFields fs vs) = .ok (vs, []) ↔ FieldsFit fs vs := by
  induction fs with
  | nil => exact ⟨fun _ => trivial, fun _ => rfl⟩
  | cons f fs ih =>
    obtain ⟨v, vs⟩ := vs
    obtain ⟨hlast, hr⟩ := rest_last_cons hr
    have hafter : f.kind = .rest → encodeFields fs vs = [] := by
      intro hf
      have hfs := hlast hf
      subst fs
      rfl
    refine unmarshalFields_cons_eq_ok.trans ⟨?_, ?_⟩
    · rintro ⟨d, hv, hvs⟩
      obtain ⟨hf, rfl⟩ := Kind.fits_of_unmarshal hafter hv
      exact ⟨hf, (ih hr ha.2).mp hvs⟩
    · rintro ⟨hf, hfs⟩
      exact ⟨_, Kind.unmarshal_encode ha.1 hf hafter _, (ih hr ha.2).mpr hfs⟩

section

variable {vs : Vals fs} (h : unmarshalFields name fs data = .ok (vs, r))

include h

theorem admits_of_unmarshalFields : FieldsAdmit fs vs := by
  induction fs generalizing data with
  | nil => trivial
  | cons f fs ih =>
    obtain ⟨d, hv, hvs⟩ := unmarshalFields_cons_eq_ok.mp h
    exact ⟨Kind.admits_of_unmarshal hv, ih hvs⟩

theorem eq_of_unmarshalFields
    (hvs : encodeFields fs vs = []) : r = data := by
  induction fs generalizing data with
  | nil =>
    cases h
    rfl
  | cons f fs ih =>
    obtain ⟨d, hv, hrest⟩ := unmarshalFields_cons_eq_ok.mp h
    obtain ⟨h₁, h₂⟩ := List.append_eq_nil_iff.mp hvs
    rw [ih hrest h₂, Kind.eq_of_unmarshal hv h₁]

theorem length_of_unmarshalFields :
    (encodeFields fs vs).length + r.length ≤ data.length := by
  induction fs generalizing data with
  | nil =>
    cases h
    exact le_of_eq (Nat.zero_add _)
  | cons f fs ih =>
    obtain ⟨d, hv, hrest⟩ := unmarshalFields_cons_eq_ok.mp h
    have h₁ := Kind.length_of_unmarshal hv
    have h₂ := ih hrest
    change (f.kind.encode vs.1 ++ encodeFields fs vs.2).length + r.length ≤ data.length
    rw [length_append]
    omega

end

namespace StructType

variable {t : StructType} {m : Vals t.fields}

def encode (t : StructType) (m : Vals t.fields) : Bytes := t.tags.take 1 ++ encodeFields t.fields m

structure Admits (t : StructType) (m : Vals t.fields) : Prop where
  nonempty : t.encode m ≠ []
  fields : FieldsAdmit t.fields m

/-- What `Unmarshal` can read back: the type byte is not 0, every string with its length is shorter
than 2^32 bytes, and no longer than what is left from its first byte on, counted modulo 2^32. -/
structure Fits (t : StructType) (m : Vals t.fields) : Prop where
  tag : t.tags.head? ≠ some 0
  fields : FieldsFit t.fields m

theorem marshal_eq (t : StructType) (m : Vals t.fields) : marshal t m = some (t.encode m) :=
  marshalFields_eq t.fields m (t.tags.take 1)

theorem unmarshalFields_end (body : Bytes) : (do
    let (vs, rest) ← unmarshalFields t.name t.fields body
    if rest = [] then pure vs else .error (parseError (t.tags.headD 0))) = .ok m ↔
      unmarshalFields t.name t.fields body = .ok (m, []) := by
  rw [except_bind_eq_ok]
  constructor
  · rintro ⟨⟨vs, rest⟩, hu, h⟩
    dsimp only at h
    split at h
    · cases h
      rwa [‹rest = []›] at hu
    · cases h
  · exact fun hu => ⟨(m, []), hu, rfl⟩

theorem unmarshal_eq_ok : unmarshal t data = .ok m ↔
    data ≠ [] ∧ ∃ body, unmarshalFields t.name t.fields body = .ok (m, []) ∧
      (t.tags = [] ∧ data = body ∨ ∃ x, x ∈ t.tags ∧ x ≠ 0 ∧ data = x :: body) := by
  cases data with
  | nil => simp [unmarshal]
  | cons x body =>
    have hgood : (t.tags.any fun e => decide (e > 0) && x == e) = true ↔ x ∈ t.tags ∧ x ≠ 0 := by
      rw [List.any_eq_true]
      constructor
      · rintro ⟨e, he, h⟩
        obtain ⟨h₁, h₂⟩ := Bool.and_eq_true_iff.mp h
        have hx : x = e := beq_iff_eq.mp h₂
        subst e
        refine ⟨he, ?_⟩
        rintro rfl
        exact absurd h₁ (by decide)
      · rintro ⟨he, h⟩
        refine ⟨x, he, Bool.and_eq_true_iff.mpr ⟨decide_eq_true ?_, beq_self_eq_true x⟩⟩
        exact UInt8.pos_iff_ne_zero.mpr h
    by_cases ht : t.tags = []
    · have hskip : ¬ (t.tags ≠ [] ∧ (t.tags.any fun e => decide (e > 0) && x == e) = false) :=
        fun h => h.1 ht
      simp only [unmarshal, if_neg hskip, unmarshalFields_end, if_pos ht]
      simp [ht]
    by_cases hx : x ∈ t.tags ∧ x ≠ 0
    · have hskip : ¬ (t.tags ≠ [] ∧ (t.tags.any fun e => decide (e > 0) && x == e) = false) := by
        rintro ⟨-, h⟩
        rw [hgood.mpr hx] at h
        cases h
      simp only [unmarshal, if_neg hskip, unmarshalFields_end, if_neg ht]
      constructor
      · intro h
        exact ⟨cons_ne_nil x body, body, h, .inr ⟨x, hx.1, hx.2, rfl⟩⟩
      rintro ⟨-, body', h, ⟨h0, -⟩ | ⟨x', -, -, he⟩⟩
      · exact absurd h0 ht
      · cases he
        exact h
    · have hbad : t.tags ≠ [] ∧ (t.tags.any fun e => decide (e > 0) && x == e) = false :=
        ⟨ht, Bool.eq_false_iff.mpr fun h => hx (hgood.mp h)⟩
      simp only [unmarshal, if_pos hbad]
      constructor
      · intro h
        cases h
      rintro ⟨-, body', h, ⟨h0, -⟩ | ⟨x', hx', h0, he⟩⟩
      · exact absurd h0 ht
      · cases he
        exact absurd ⟨hx', h0⟩ hx

theorem unmarshal_encode_iff (ha : t.Admits m) : unmarshal t (t.encode m) = .ok m ↔ t.Fits m := by
  rw [unmarshal_eq_ok]
  have hfields := unmarshalFields_encodeFields_iff t.name t.rest_last ha.fields
  have hne := ha.nonempty
  rw [encode] at hne ⊢
  cases ht : t.tags with
  | nil =>
    rw [ht] at hne
    constructor
    · rintro ⟨-, body, hb, ⟨-, he⟩ | ⟨x, hx, -⟩⟩
      · rw [List.take_nil, List.nil_append] at he
        subst body
        exact ⟨by simp [ht], hfields.mp hb⟩
      · cases hx
    · intro hf
      exact ⟨hne, _, hfields.mpr hf.fields, .inl ⟨rfl, rfl⟩⟩
  | cons x xs =>
    constructor
    · rintro ⟨-, body, hb, ⟨h0, -⟩ | ⟨y, -, hy, he⟩⟩
      · cases h0
      cases he
      refine ⟨?_, hfields.mp hb⟩
      rw [ht]
      intro h0
      exact hy (some.inj h0)
    · intro hf
      refine ⟨cons_ne_nil _ _, _, hfields.mpr hf.fields, .inr ⟨x, mem_cons_self, ?_, rfl⟩⟩
      intro hx
      apply hf.tag
      rw [ht, List.head?_cons, hx]

theorem admits_of_unmarshal (h : unmarshal t data = .ok m) : t.Admits m := by
  obtain ⟨hne, body, hb, hdata⟩ := unmarshal_eq_ok.mp h
  refine ⟨fun he => ?_, admits_of_unmarshalFields hb⟩
  obtain ⟨htags, hfields⟩ := List.append_eq_nil_iff.mp he
  have hbody : [] = body := eq_of_unmarshalFields hb hfields
  rcases hdata with ⟨-, rfl⟩ | ⟨x, hx, -⟩
  · exact hne hbody.symm
  rcases List.take_eq_nil_iff.mp htags with h1 | h0
  · cases h1
  · rw [h0] at hx
    cases hx

theorem length_of_unmarshal (h : unmarshal t data = .ok m) :
    (encodeFields t.fields m).length ≤ data.length := by
  obtain ⟨-, body, hb, hdata⟩ := unmarshal_eq_ok.mp h
  have hle := length_of_unmarshalFields hb
  rw [List.length_nil, Nat.add_zero] at hle
  rcases hdata with ⟨-, rfl⟩ | ⟨x, -, -, rfl⟩
  · exact hle
  · rw [length_cons]
    omega

/-- Exactly the messages that fit survive `Marshal` and `Unmarshal`, also those that `Unmarshal`
itself made. -/
theorem unmarshal_marshal_iff (t : StructType) :
    (∀ m, t.Admits m → ∃ b, marshal t m = some b ∧ (unmarshal t b = .ok m ↔ t.Fits m)) ∧
    ∀ b m, unmarshal t b = .ok m → t.Admits m ∧
      ∃ b', marshal t m = some b' ∧ (unmarshal t b' = unmarshal t b ↔ t.Fits m) := by
  constructor
  · intro m ha
    exact ⟨_, marshal_eq t m, unmarshal_encode_iff ha⟩
  intro b m h
  have ha := admits_of_unmarshal h
  rw [h]
  exact ⟨ha, _, marshal_eq t m, unmarshal_encode_iff ha⟩

end StructType

def stringAndRest : StructType where
  name := "stringAndRest"
  tags := []
  fields := [⟨"Str", .string⟩, ⟨"Rest", .rest⟩]
  fields_ne := by simp
  rest_last := by simp

theorem parseString_wraps {rest : Bytes} (h : rest.length = 2 ^ 32 - 1) :
    parseString (encodeString [65] ++ rest) = none := by
  have hlen : u32 (([65] : Bytes).length + rest.length) = 0 := by
    rw [h]
    rfl
  rw [parseString_encodeString, hlen]
  rfl

/-- A string of one byte before 2^32 - 1 more: `uint32(len(in))` is 0. -/
theorem unmarshal_marshal_wraps :
    let m : Vals stringAndRest.fields := ([65], List.replicate (2 ^ 32 - 1) 0, ())
    stringAndRest.Admits m ∧ ∃ b, marshal stringAndRest m = some b ∧
      unmarshal stringAndRest b = .error (fieldError "stringAndRest" "Str") := by
  have hlen : (List.replicate (2 ^ 32 - 1) (0 : UInt8)).length = 2 ^ 32 - 1 :=
    length_replicate
  generalize List.replicate (2 ^ 32 - 1) (0 : UInt8) = rest at hlen ⊢
  intro m
  have hshort : ([65] : Bytes).length < 2 ^ 32 := by decide
  refine ⟨⟨cons_ne_nil _ _, hshort, trivial, trivial⟩, _, StructType.marshal_eq _ m, ?_⟩
  have hbytes : stringAndRest.encode m = encodeString [65] ++ rest := by
    simp [StructType.encode, encodeFields, stringAndRest, m, Kind.encode]
  have hfields : unmarshalFields "stringAndRest" stringAndRest.fields
      (encodeString [65] ++ rest) = .error (fieldError "stringAndRest" "Str") := by
    have hstr : Kind.string.unmarshal (fieldError "stringAndRest" "Str")
        (encodeString [65] ++ rest) = .error (fieldError "stringAndRest" "Str") := by
      rw [Kind.unmarshal, parseString_wraps hlen]
      rfl
    simp only [stringAndRest, unmarshalFields, hstr]
    rfl
  rw [hbytes]
  change (do
    let (vs, r) ← unmarshalFields "stringAndRest" stringAndRest.fields (encodeString [65] ++ rest)
    if r = [] then pure vs else .error (parseError 0)) = _
  rw [hfields]
  rfl

theorem Kind.encode_eq_of_contents {k : Kind} {v : k.Val} (h : k.contents v = some c) :
    k.encode v = encodeString c := by
  cases k with
  | string | bytes | names | bigInt =>
    cases h
    rfl
  | bool | array | uint8 | uint32 | uint64 | rest => cases h

theorem stringFits_of_length_lt (h : s.length + rest.length < 2 ^ 32) : StringFits s rest := by
  refine ⟨by omega, ?_⟩
  rw [u32_of_lt h]
  exact Nat.le_add_right _ _

theorem fieldsFit_of_length_lt {fs : List Field} {vs : Vals fs}
    (h : (encodeFields fs vs).length < 2 ^ 32) : FieldsFit fs vs := by
  induction fs with
  | nil => trivial
  | cons f fs ih =>
    obtain ⟨v, vs⟩ := vs
    rw [encodeFields, length_append] at h
    refine ⟨fun c hc => stringFits_of_length_lt ?_, ih (by omega)⟩
    rw [Kind.encode_eq_of_contents hc, length_encodeString] at h
    omega

end XCryptoSsh
