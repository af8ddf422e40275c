import XCryptoSsh.Basic
import XCryptoSsh.BigInt

namespace XCryptoSsh
open Go
set_option autoImplicit true

inductive Kind where
  | bool
  | array (n : Nat)
  | uint8
  | uint32
  | uint64
  | string
  | bytes
  | names
  | bigInt
  -- a []byte with the tag `ssh:"rest"`
  | rest
  deriving DecidableEq, Repr

/-- A Go string is a sequence of bytes. -/
def Kind.Val : Kind → Type
  | .bool => Bool
  | .array n => {b : Bytes // b.length = n}
  | .uint8 => UInt8
  | .uint32 => UInt32
  | .uint64 => UInt64
  | .string => Bytes
  | .bytes => Bytes
  | .names => List Bytes
  | .bigInt => Int
  | .rest => Bytes

structure Field where
  name : String
  kind : Kind
  deriving DecidableEq, Repr

/-- A message struct. The `tags` are those of the `sshtype` tag of its first field, which must
exist; a field tagged `rest` is the last one. -/
structure StructType where
  name : String
  tags : List UInt8
  fields : List Field
  fields_ne : fields ≠ []
  rest_last : ∀ f ∈ fields.dropLast, f.kind ≠ .rest

def Vals : List Field → Type
  | [] => Unit
  | f :: fs => f.kind.Val × Vals fs

def parseError (tag : UInt8) : Err :=
  .text ("ssh: parse error in message type " ++ toString tag.toNat)

def errShortRead : Err := .text "ssh: short read"

/-- The only field error a supported field gives has no further problem to name. -/
def fieldError (structName fieldName : String) : Err :=
  .text ("ssh: unmarshal error for field " ++ fieldName ++ " of type " ++ structName)

/-- The remaining length is compared as a `uint32`. -/
def parseString (input : Bytes) : Option (Bytes × Bytes) :=
  if input.length < 4 then none
  else
    let length := bigEndianUint32 (input.take 4)
    let input := input.drop 4
    if u32 input.length < length then none
    else some (input.take length, input.drop length)

def comma : UInt8 := 0x2c

def parseNameList (input : Bytes) : Option (List Bytes × Bytes) :=
  match parseString input with
  | none => none
  | some (contents, rest) =>
    if contents.length = 0 then some ([], rest) else some (contents.splitOn comma, rest)

/-- The number that the contents of an `mpint` stand for. -/
def intOfContents : Bytes → Int
  | [] => 0
  | x :: contents =>
    if x &&& 0x80 = 0x80 then
      -((setBytes ((x :: contents).map fun b => ~~~b) : Int) + 1)
    else setBytes (x :: contents)

def parseInt (input : Bytes) : Option (Int × Bytes) :=
  match parseString input with
  | none => none
  | some (contents, rest) => some (intOfContents contents, rest)

def parseUint32 (input : Bytes) : Option (Nat × Bytes) :=
  if input.length < 4 then none else some (bigEndianUint32 (input.take 4), input.drop 4)

def parseUint64 (input : Bytes) : Option (Nat × Bytes) :=
  if input.length < 8 then none else some (bigEndianUint64 (input.take 8), input.drop 8)

def orErr (e : Err) : Option α → Except Err α
  | some a => .ok a
  | none => .error e

/-- One round of the loop of `Unmarshal`. -/
def Kind.unmarshal (fieldErr : Err) : (k : Kind) → Bytes → Except Err (k.Val × Bytes)
  | .bool, [] => .error errShortRead
  | .bool, x :: data => .ok (x != 0, data)
  | .array n, data =>
    if h : data.length < n then .error errShortRead
    else .ok (⟨data.take n, List.length_take_of_le (Nat.le_of_not_lt h)⟩, data.drop n)
  | .uint64, data => do
    let (n, data) ← orErr errShortRead (parseUint64 data)
    pure (UInt64.ofNat n, data)
  | .uint32, data => do
    let (n, data) ← orErr errShortRead (parseUint32 data)
    pure (UInt32.ofNat n, data)
  | .uint8, [] => .error errShortRead
  | .uint8, x :: data => .ok (x, data)
  | .string, data => orErr fieldErr (parseString data)
  | .bytes, data => orErr errShortRead (parseString data)
  | .names, data => orErr errShortRead (parseNameList data)
  | .bigInt, data => orErr errShortRead (parseInt data)
  | .rest, data => .ok (data, [])

def unmarshalFields (structName : String) :
    (fs : List Field) → Bytes → Except Err (Vals fs × Bytes)
  | [], data => .ok ((), data)
  | f :: fs, data => do
    let (v, data) ← f.kind.unmarshal (fieldError structName f.name) data
    let (vs, data) ← unmarshalFields structName fs data
    pure ((v, vs), data)

/-- A list of bytes as `%v` prints it. -/
def formatBytes (b : Bytes) : String :=
  "[" ++ " ".intercalate (b.map fun x => toString x.toNat) ++ "]"

/-- `Unmarshal`; a type byte 0 is never the expected one. -/
def unmarshal (t : StructType) (data : Bytes) : Except Err (Vals t.fields) :=
  let expectedType := t.tags.headD 0
  match data with
  | [] => .error (parseError expectedType)
  | x :: body =>
    let goodType := t.tags.any fun e => decide (e > 0) && x == e
    if t.tags ≠ [] ∧ goodType = false then
      .error (.text ("ssh: unexpected message type " ++ toString x.toNat ++
        " (expected one of " ++ formatBytes t.tags ++ ")"))
    else do
      let (vs, rest) ← unmarshalFields t.name t.fields (if t.tags = [] then x :: body else body)
      if rest = [] then pure vs else .error (parseError expectedType)

/-- The length of `marshalInt`'s output, the four length bytes included. -/
def intLength (n : Int) : Nat :=
  if n < 0 then
    let bitLen := bitLen (-n - 1).toNat
    4 + (if bitLen % 8 = 0 then 1 else 0) + (bitLen + 7) / 8
  else if n = 0 then 4
  else
    let bitLen := bitLen n.toNat
    4 + (if bitLen % 8 = 0 then 1 else 0) + (bitLen + 7) / 8

/-- The padding byte `marshalInt` puts first, if any, and the bytes it then copies. -/
def intBytes (n : Int) : Bytes × Bytes :=
  if n < 0 then
    let bytes := (natBytes (-n - 1).toNat).map fun b => b ^^^ 0xff
    match bytes with
    | [] => ([0xff], bytes)
    | x :: _ => (if x &&& 0x80 = 0 then [0xff] else [], bytes)
  else if n = 0 then ([], [])
  else
    let bytes := natBytes n.toNat
    match bytes with
    | [] => ([], bytes)
    | x :: _ => (if x &&& 0x80 ≠ 0 then [0] else [], bytes)

/-- The buffer `dst` after `marshalInt`; `none` when an index is out of range. The copy stops at the
end of the buffer. -/
def marshalInt (dst : Bytes) (n : Int) : Option Bytes :=
  let (pad, bytes) := intBytes n
  if dst.length < 4 + pad.length then none
  else
    let written := pad ++ bytes.take (dst.length - 4 - pad.length)
    some (putUint32 written.length ++ written ++ dst.drop (4 + written.length))

def appendNames (out : Bytes) : List Bytes → Bytes
  | [] => out
  | name :: names => names.foldl (fun out name => out ++ [comma] ++ name) (out ++ name)

/-- A name list; its length is filled in after the names. -/
def marshalNameList (out : Bytes) (names : List Bytes) : Bytes :=
  let offset := out.length
  let out := out ++ putUint32 0
  if names.length > 0 then
    let out := appendNames out names
    out.take offset ++ putUint32 (u32 (out.length - offset - 4)) ++ out.drop (offset + 4)
  else out

/-- One round of the loop of `marshalStruct`; `none` when it panics. -/
def Kind.marshal (out : Bytes) : (k : Kind) → k.Val → Option Bytes
  | .bool, (v : Bool) => some (out ++ [if v then 1 else 0])
  | .array _, v => some (out ++ v.val)
  | .uint32, (v : UInt32) => some (out ++ putUint32 v.toNat)
  | .uint64, (v : UInt64) => some (out ++ putUint64 v.toNat)
  | .uint8, (v : UInt8) => some (out ++ [v])
  | .string, (s : Bytes) => some (out ++ putUint32 (u32 s.length) ++ s)
  | .rest, (b : Bytes) => some (out ++ b)
  | .bytes, (b : Bytes) => some (out ++ putUint32 (u32 b.length) ++ b)
  | .names, (ns : List Bytes) => some (marshalNameList out ns)
  | .bigInt, (n : Int) => (marshalInt (List.replicate (intLength n) 0) n).map fun b => out ++ b

def marshalFields : (fs : List Field) → Vals fs → Bytes → Option Bytes
  | [], _, out => some out
  | f :: fs, (v, vs), out => do
    let out ← f.kind.marshal out v
    marshalFields fs vs out

/-- `Marshal`; the first of the type tags is the one written. -/
def marshal (t : StructType) (m : Vals t.fields) : Option Bytes :=
  marshalFields t.fields m (t.tags.take 1)

end XCryptoSsh
