import XCryptoSsh.MessagesRoundTrip

namespace XCryptoSsh
open Go
open Result (ok_bind ofExcept_bind)
set_option autoImplicit true

namespace Checked

variable (input : Bytes)

def parseString : Result Err (Option (Bytes × Bytes)) :=
  if input.length < 4 then pure none
  else do
    let length ← uint32Of input
    let input ← bytesFrom input 4
    if u32 input.length < length then pure none
    else do
      let out ← bytesTo input length
      let rest ← bytesFrom input length
      pure (some (out, rest))

def parseNameList : Result Err (Option (List Bytes × Bytes)) := do
  match ← parseString input with
  | none => pure none
  | some (contents, rest) =>
    pure (if contents.length = 0 then some ([], rest) else some (contents.splitOn comma, rest))

def parseInt : Result Err (Option (Int × Bytes)) := do
  match ← parseString input with
  | none => pure none
  | some (contents, rest) =>
    let negative ← if contents.length > 0 then do pure ((← byteAt contents 0) &&& 0x80 == 0x80)
      else pure false
    pure (some (if negative then -((setBytes (contents.map fun b => ~~~b) : Int) + 1)
      else setBytes contents, rest))

def parseUint32 : Result Err (Option (Nat × Bytes)) :=
  if input.length < 4 then pure none
  else do
    let n ← uint32Of input
    let rest ← bytesFrom input 4
    pure (some (n, rest))

def parseUint64 : Result Err (Option (Nat × Bytes)) :=
  if input.length < 8 then pure none
  else do
    let n ← uint64Of input
    let rest ← bytesFrom input 8
    pure (some (n, rest))

def firstBytes (data : Bytes) (n : Nat) : Result Err {b : Bytes // b.length = n} :=
  if h : n ≤ data.length then pure ⟨data.take n, List.length_take_of_le h⟩ else .panic

def orErr (e : Err) (r : Result Err (Option α)) : Result Err α := do
  match ← r with
  | some a => pure a
  | none => .error e

def unmarshalKind (fieldErr : Err) : (k : Kind) → Bytes → Result Err (k.Val × Bytes)
  | .bool, data =>
    if data.length < 1 then .error errShortRead
    else do
      let x ← byteAt data 0
      let data ← bytesFrom data 1
      pure (x != 0, data)
  | .array n, data =>
    if data.length < n then .error errShortRead
    else do
      let b ← firstBytes data n
      let data ← bytesFrom data n
      pure (b, data)
  | .uint64, data => do
    let (n, data) ← orErr errShortRead (parseUint64 data)
    pure (UInt64.ofNat n, data)
  | .uint32, data => do
    let (n, data) ← orErr errShortRead (parseUint32 data)
    pure (UInt32.ofNat n, data)
  | .uint8, data =>
    if data.length < 1 then .error errShortRead
    else do
      let x ← byteAt data 0
      let data ← bytesFrom data 1
      pure (x, data)
  | .string, data => orErr fieldErr (parseString data)
  | .bytes, data => orErr errShortRead (parseString data)
  | .names, data => orErr errShortRead (parseNameList data)
  | .bigInt, data => orErr errShortRead (parseInt data)
  | .rest, data => pure (data, [])

def unmarshalFields (structName : String) :
    (fs : List Field) → Bytes → Result Err (Vals fs × Bytes)
  | [], data => pure ((), data)
  | f :: fs, data => do
    let (v, data) ← unmarshalKind (fieldError structName f.name) f.kind data
    let (vs, data) ← unmarshalFields structName fs data
    pure ((v, vs), data)

def unmarshal (t : StructType) (data : Bytes) : Result Err (Vals t.fields) :=
  let expectedType := t.tags.headD 0
  if data.length = 0 then .error (parseError expectedType)
  else do
    let body ← if t.tags ≠ [] then do
        let x ← byteAt data 0
        if (t.tags.any fun e => decide (e > 0) && x == e) = false then
          .error (.text ("ssh: unexpected message type " ++ toString x.toNat ++
            " (expected one of " ++ formatBytes t.tags ++ ")"))
        else bytesFrom data 1
      else pure data
    let (vs, rest) ← unmarshalFields t.name t.fields body
    if rest.length ≠ 0 then .error (parseError expectedType) else pure vs

theorem parseString_eq :
    parseString input = .ok (XCryptoSsh.parseString input) := by
  unfold parseString XCryptoSsh.parseString
  by_cases h : input.length < 4
  · rw [if_pos h, if_pos h]
    rfl
  have h4 : 4 ≤ input.length := Nat.le_of_not_lt h
  rw [if_neg h, if_neg h, uint32Of_of_le h4, ok_bind, bytesFrom_of_le h4, ok_bind]
  by_cases hl : u32 (input.drop 4).length < bigEndianUint32 (input.take 4)
  · rw [if_pos hl]
    simp only [if_pos hl]
    rfl
  -- the comparison as `uint32` is the stricter one
  have hle : bigEndianUint32 (input.take 4) ≤ (input.drop 4).length :=
    (Nat.le_of_not_lt hl).trans (Nat.mod_le _ _)
  rw [if_neg hl, bytesTo_of_le hle, ok_bind, bytesFrom_of_le hle, ok_bind]
  simp only [if_neg hl]
  rfl

theorem parseNameList_eq :
    parseNameList input = .ok (XCryptoSsh.parseNameList input) := by
  unfold parseNameList XCryptoSsh.parseNameList
  rw [parseString_eq, ok_bind]
  cases XCryptoSsh.parseString input with
  | none => rfl
  | some r =>
    obtain ⟨contents, rest⟩ := r
    rfl

theorem parseInt_eq : parseInt input = .ok (XCryptoSsh.parseInt input) := by
  unfold parseInt XCryptoSsh.parseInt
  rw [parseString_eq, ok_bind]
  cases XCryptoSsh.parseString input with
  | none => rfl
  | some r =>
    obtain ⟨contents, rest⟩ := r
    cases contents with
    | nil => rfl
    | cons x contents =>
      simp only [List.length_cons, Nat.zero_lt_succ, if_true, byteAt_cons_zero, ok_bind,
        intOfContents]
      by_cases hx : x &&& 0x80 = 0x80
      · simp [hx, pure]
      · simp [hx, pure]

theorem parseUint32_eq :
    parseUint32 input = .ok (XCryptoSsh.parseUint32 input) := by
  unfold parseUint32 XCryptoSsh.parseUint32
  by_cases h : input.length < 4
  · rw [if_pos h, if_pos h]
    rfl
  have h4 : 4 ≤ input.length := Nat.le_of_not_lt h
  rw [if_neg h, if_neg h, uint32Of_of_le h4, ok_bind, bytesFrom_of_le h4]
  rfl

theorem parseUint64_eq :
    parseUint64 input = .ok (XCryptoSsh.parseUint64 input) := by
  unfold parseUint64 XCryptoSsh.parseUint64
  by_cases h : input.length < 8
  · rw [if_pos h, if_pos h]
    rfl
  have h8 : 8 ≤ input.length := Nat.le_of_not_lt h
  rw [if_neg h, if_neg h, uint64Of_of_le h8, ok_bind, bytesFrom_of_le h8]
  rfl

theorem orErr_of_eq {r : Result Err (Option α)} (h : r = .ok o) (e : Err) :
    orErr e r = .ofExcept (XCryptoSsh.orErr e o) := by
  subst h
  cases o <;> rfl

theorem unmarshalKind_eq (fieldErr : Err) (k : Kind) (data : Bytes) :
    unmarshalKind fieldErr k data = .ofExcept (k.unmarshal fieldErr data) := by
  cases k with
  | bool | uint8 => cases data <;> rfl
  | array n =>
    simp only [unmarshalKind, Kind.unmarshal]
    by_cases h : data.length < n
    · rw [if_pos h, dif_pos h]
      rfl
    have hn : n ≤ data.length := Nat.le_of_not_lt h
    rw [if_neg h, dif_neg h, firstBytes, dif_pos hn, bytesFrom_of_le hn]
    rfl
  | uint32 =>
    rw [unmarshalKind, orErr_of_eq (parseUint32_eq data), Kind.unmarshal, ofExcept_bind]
    rfl
  | uint64 =>
    rw [unmarshalKind, orErr_of_eq (parseUint64_eq data), Kind.unmarshal, ofExcept_bind]
    rfl
  | string => exact orErr_of_eq (parseString_eq data) fieldErr
  | bytes => exact orErr_of_eq (parseString_eq data) errShortRead
  | names => exact orErr_of_eq (parseNameList_eq data) errShortRead
  | bigInt => exact orErr_of_eq (parseInt_eq data) errShortRead
  | rest => rfl

theorem unmarshalFields_eq (structName : String) (fs : List Field) (data : Bytes) :
    unmarshalFields structName fs data =
      .ofExcept (XCryptoSsh.unmarshalFields structName fs data) := by
  induction fs generalizing data with
  | nil => rfl
  | cons f fs ih =>
    rw [unmarshalFields, XCryptoSsh.unmarshalFields, unmarshalKind_eq, ofExcept_bind]
    apply Result.bind_congr
    intro r
    simp only [ih, ofExcept_bind]
    rfl

theorem unmarshal_eq (t : StructType) (data : Bytes) :
    unmarshal t data = .ofExcept (XCryptoSsh.unmarshal t data) := by
  cases data with
  | nil => rfl
  | cons x body =>
    have hfields (d : Bytes) : (do
        let (vs, rest) ← unmarshalFields t.name t.fields d
        if rest.length ≠ 0 then .error (parseError (t.tags.headD 0)) else pure vs) =
        Result.ofExcept (do
          let (vs, rest) ← XCryptoSsh.unmarshalFields t.name t.fields d
          if rest = [] then pure vs else .error (parseError (t.tags.headD 0))) := by
      rw [unmarshalFields_eq, ofExcept_bind]
      apply Result.bind_congr
      intro r
      obtain ⟨vs, rest⟩ := r
      cases rest <;> rfl
    by_cases ht : t.tags = []
    · simpa [unmarshal, XCryptoSsh.unmarshal, ht, pure] using hfields (x :: body)
    by_cases hg : (t.tags.any fun e => decide (e > 0) && x == e) = false
    · simp [unmarshal, XCryptoSsh.unmarshal, ht, hg, Result.ofExcept, bind]
    have hfrom : (bytesFrom (x :: body) 1 : Result Err Bytes) = .ok body :=
      bytesFrom_of_le (Nat.succ_le_succ (Nat.zero_le _))
    simp only [unmarshal, XCryptoSsh.unmarshal, List.length_cons, Nat.add_one_ne_zero, if_false,
      ne_eq, ht, not_false_eq_true, if_true, byteAt_cons_zero, ok_bind, hg, hfrom,
      true_and]
    exact hfields body

end Checked
end XCryptoSsh
