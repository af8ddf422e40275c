import XCryptoSsh.Certs

namespace XCryptoSsh
open Go
set_option autoImplicit true

namespace KnownHosts

structure Addr where
  host : Bytes
  port : Bytes
  deriving DecidableEq, Repr

def Addr.string (a : Addr) : Bytes :=
  (if 0x3a ∈ a.host then [0x5b] ++ a.host ++ [0x5d] else a.host) ++ [0x3a] ++ a.port

structure HostPattern where
  negate : Bool
  addr : Addr
  deriving DecidableEq, Repr

/-- `*` stands for any bytes, `?` for one. -/
def wildcardMatch : (pat str : Bytes) → Bool
  | [], str => str.isEmpty
  | _ :: _, [] => false
  | p :: pat, c :: str =>
    if p = 0x2a then
      if pat = [] then true
      else (List.range (c :: str).length).any fun j => wildcardMatch pat ((c :: str).drop j)
    else if p = 0x3f ∨ p = c then wildcardMatch pat str
    else false

def HostPattern.matchAddr (p : HostPattern) (a : Addr) : Bool :=
  wildcardMatch p.addr.host a.host && p.addr.port == a.port

/-- The two loops of `hostPatterns.match`, over the patterns and for each over the addresses. -/
def matchLoop (matched : Bool) : List (HostPattern × Addr) → Bool
  | [] => matched
  | (p, a) :: rest =>
    if !p.matchAddr a then matchLoop matched rest
    else if p.negate then false
    else matchLoop true rest

def matchPatterns (ps : List HostPattern) (addrs : List Addr) : Bool :=
  matchLoop false (ps.flatMap fun p => addrs.map fun a => (p, a))

def normalize (address : Bytes) : Bytes :=
  let (host, port) := match splitHostPort address with
    | .ok hp => hp
    | .error _ => (address, ascii "22")
  if port ≠ ascii "22" then [0x5b] ++ host ++ [0x5d, 0x3a] ++ port
  else if 0x3a ∈ host ∧ host.head? ≠ some 0x5b then [0x5b] ++ host ++ [0x5d]
  else host

structure HashedHost where
  salt : Bytes
  hash : Bytes
  deriving DecidableEq, Repr

/-- What the package takes from others: the curves and signature checks, HMAC-SHA1, the contents of
the files, and the time. -/
structure Env where
  elliptic : Elliptic
  verifiers : Verifiers
  hmacSHA1 : (salt data : Bytes) → Bytes
  readFile : String → Except Err Bytes
  now : Int

def hashHost (env : Env) (hostname salt : Bytes) : Bytes := env.hmacSHA1 salt hostname

def HashedHost.matchAddrs (env : Env) (h : HashedHost) (addrs : List Addr) : Bool :=
  addrs.any fun a => hashHost env (normalize a.string) h.salt == h.hash

inductive Matcher where
  | patterns (ps : List HostPattern)
  | hashed (h : HashedHost)
  deriving DecidableEq, Repr

def Matcher.matchAddrs (env : Env) : Matcher → List Addr → Bool
  | .patterns ps, addrs => matchPatterns ps addrs
  | .hashed h, addrs => h.matchAddrs env addrs

/-- One pattern of the list, which is not empty. -/
def newHostPattern (p : Bytes) : Except Err HostPattern :=
  let negate := p.head? == some 0x21
  let p := if negate then p.drop 1 else p
  match p with
  | [] => .error (.text "knownhosts: negation without following hostname")
  | x :: _ =>
    match splitHostPort p with
    | .ok (host, port) => .ok ⟨negate, host, port⟩
    | .error e => if x = 0x5b then .error (.text e) else .ok ⟨negate, p, ascii "22"⟩

def newHostnameMatcher (pattern : Bytes) : Except Err Matcher := do
  let hps ← ((pattern.splitOn 0x2c).filter fun p => p != []).mapM newHostPattern
  pure (.patterns hps)

def decodeBase64 (s : Bytes) : Except Err Bytes :=
  match base64Decode s with
  | .ok b => .ok b
  | .error e => .error (.text e)

/-- The hash type, the salt and the hash. -/
def decodeHash (encoded : Bytes) : Except Err (Bytes × Bytes × Bytes) :=
  if encoded.head? ≠ some 0x7c then
    .error (.text "knownhosts: hashed host must start with '|'")
  else
    match encoded.splitOn 0x7c with
    | [_, hashType, salt, hash] => do
      let salt ← decodeBase64 salt
      let hash ← decodeBase64 hash
      pure (hashType, salt, hash)
    | components => .error (.text ("knownhosts: got " ++ toString components.length ++
        " components, want 3"))

def newHashedHost (encoded : Bytes) : Except Err Matcher := do
  let (typ, salt, hash) ← decodeHash encoded
  if typ ≠ ascii "1" then
    .error (.text ("knownhosts: got hash type " ++ showBytes typ ++ ", must be '1'"))
  else pure (.hashed ⟨salt, hash⟩)

structure KnownKey where
  key : PublicKey
  filename : String
  line : Nat

structure KeyDBLine where
  cert : Bool
  matcher : Matcher
  knownKey : KnownKey

structure HostKeyDB where
  /-- By the marshalled key. -/
  revoked : Finmap fun _ : Bytes => KnownKey
  lines : List KeyDBLine

def newHostKeyDB : HostKeyDB := ⟨∅, []⟩

/-- `Marshal` does not panic, so both sides are `some`. -/
def keyEq (E : Elliptic) (a b : PublicKey) : Bool := a.marshal E == b.marshal E

inductive Marker where
  | none
  | cert
  | revoked
  deriving DecidableEq, Repr

def nextWord (line : Bytes) : Bytes × Bytes :=
  match line.dropWhile fun x => x != 0x09 && x != 0x20 with
  | [] => (line, [])
  | rest => (line.takeWhile fun x => x != 0x09 && x != 0x20, trimSpace rest)

def nextMarker (line : Bytes) : Marker × Bytes :=
  let (w, next) := nextWord line
  if w = ascii "@cert-authority" then (.cert, next)
  else if w = ascii "@revoked" then (.revoked, next)
  else (.none, line)

/-- The key type is not looked at, since the key names it too. -/
def parseLine (E : Elliptic) (line : Bytes) : Except Err (Marker × Bytes × PublicKey) :=
  let (marker, line) := nextMarker line
  let (host, line) := nextWord line
  if line = [] then .error (.text "knownhosts: missing host pattern")
  else
    let (_, line) := nextWord line
    if line = [] then .error (.text "knownhosts: missing key type pattern")
    else do
      let keyBytes ← decodeBase64 (nextWord line).1
      let key ← parsePublicKey E keyBytes
      pure (marker, host, key)

/-- The first byte of the pattern tells the two kinds apart. -/
def newMatcher (pattern : Bytes) : Result Err Matcher :=
  match pattern with
  | [] => .panic
  | x :: _ => .ofExcept (if x = 0x7c then newHashedHost pattern else newHostnameMatcher pattern)

def HostKeyDB.parseLine (E : Elliptic) (db : HostKeyDB) (line : Bytes) (filename : String)
    (linenum : Nat) : Result Err HostKeyDB := do
  let (marker, pattern, key) ← .ofExcept (KnownHosts.parseLine E line)
  let knownKey : KnownKey := ⟨key, filename, linenum⟩
  if marker = .revoked then
    let b ← .ofOption (key.marshal E)
    pure { db with revoked := db.revoked.insert b knownKey }
  else
    let matcher ← newMatcher pattern
    pure { db with lines := db.lines ++ [⟨marker == .cert, matcher, knownKey⟩] }

/-- A line without the white space around it; nothing for an empty line or a comment. -/
def entryOf (line : Bytes) : Option Bytes :=
  let line := trimSpace line
  if line = [] ∨ line.head? = some 0x23 then none else some line

def HostKeyDB.readLines (E : Elliptic) (filename : String) :
    HostKeyDB → Nat → List Bytes → Result Err HostKeyDB
  | db, _, [] => .ok db
  | db, lineNum, line :: rest =>
    match entryOf line with
    | none => readLines E filename db (lineNum + 1) rest
    | some entry =>
      match db.parseLine E entry filename (lineNum + 1) with
      | .ok db => readLines E filename db (lineNum + 1) rest
      | .error err => .error (.text ("knownhosts: " ++ filename ++ ":" ++
          toString (lineNum + 1) ++ ": " ++ err.error))
      | .panic => .panic

def HostKeyDB.read (E : Elliptic) (db : HostKeyDB) (contents : Bytes) (filename : String) :
    Result Err HostKeyDB := do
  let db ← db.readLines E filename 0 (textLines contents).1
  if (textLines contents).2 then .error (.text "bufio.Scanner: token too long") else pure db

/-- The errors of `CheckHostKey` on a database: those of the package `ssh`, and the two of this
one. -/
inductive HostKeyErr where
  | ssh (e : Err)
  | keyError (want : List KnownKey)
  | revokedError (revoked : KnownKey)

instance : Coe Err HostKeyErr := ⟨.ssh⟩

namespace HostKeyDB

def isHostAuthority (env : Env) (db : HostKeyDB) (remote : PublicKey) (address : Bytes) : Bool :=
  match splitHostPort address with
  | .error _ => false
  | .ok (h, p) => db.lines.any fun l =>
    l.cert && keyEq env.elliptic l.knownKey.key remote && l.matcher.matchAddrs env [⟨h, p⟩]

def isRevoked (env : Env) (db : HostKeyDB) (c : Certificate) (signatureKey : PublicKey) : Bool :=
  ((PublicKey.cert c signatureKey).marshal env.elliptic).any fun b => (db.revoked.lookup b).isSome

/-- For each key type the first line that matches. -/
def knownKeys (env : Env) (db : HostKeyDB) (addrs : List Addr) : List (String × KnownKey) :=
  db.lines.foldl (fun known l =>
    if l.matcher.matchAddrs env addrs && (known.lookup l.knownKey.key.type).isNone then
      known ++ [(l.knownKey.key.type, l.knownKey)]
    else known) []

def checkAddrs (env : Env) (db : HostKeyDB) (addrs : List Addr) (remoteKey : PublicKey) :
    Result HostKeyErr Unit :=
  let known := db.knownKeys env addrs
  -- the source has the keys in the order of a map
  let keyErr : HostKeyErr := .keyError (known.map Prod.snd)
  if known = [] then .error keyErr
  else
    match known.lookup remoteKey.type with
    | none => .error keyErr
    | some k => if keyEq env.elliptic k.key remoteKey then .ok () else .error keyErr

def splitAddr (address : Bytes) : Result HostKeyErr Addr :=
  match splitHostPort address with
  | .ok (host, port) => .ok ⟨host, port⟩
  | .error err => .error (Err.text ("knownhosts: SplitHostPort(" ++ showBytes address ++ "): " ++
      err) : Err)

def check (env : Env) (db : HostKeyDB) (address remote : Bytes) (remoteKey : PublicKey) :
    Result HostKeyErr Unit := do
  let b ← .ofOption (remoteKey.marshal env.elliptic)
  match db.revoked.lookup b with
  | some revoked => .error (.revokedError revoked)
  | none => do
    let a ← splitAddr remote
    if address ≠ [] then
      let a' ← splitAddr address
      db.checkAddrs env [a, a'] remoteKey
    else db.checkAddrs env [a] remoteKey

def certChecker (env : Env) (db : HostKeyDB) : CertChecker HostKeyErr where
  supportedCriticalOptions := []
  isHostAuthority := db.isHostAuthority env
  clock := env.now
  hostKeyFallback := some (db.check env)
  isRevoked := some (db.isRevoked env)

def hostKeyCallback (env : Env) (db : HostKeyDB) :
    (addr remote : Bytes) → PublicKey → Result HostKeyErr Unit :=
  (db.certChecker env).checkHostKey env.elliptic env.verifiers

end HostKeyDB

def load (env : Env) : HostKeyDB → List String → Result Err HostKeyDB
  | db, [] => .ok db
  | db, fn :: files => do
    let contents ← .ofExcept (env.readFile fn)
    let db ← db.read env.elliptic contents fn
    load env db files

def new (env : Env) (files : List String) :
    Result Err ((addr remote : Bytes) → PublicKey → Result HostKeyErr Unit) := do
  let db ← load env newHostKeyDB files
  pure (db.hostKeyCallback env)

def serialize (E : Elliptic) (k : PublicKey) : Option Bytes := do
  let b ← k.marshal E
  pure (ascii k.type ++ [0x20] ++ base64Encode b)

def line (E : Elliptic) (addresses : List Bytes) (key : PublicKey) : Option Bytes := do
  let s ← serialize E key
  pure ([0x2c].intercalate (addresses.map normalize) ++ [0x20] ++ s)

end KnownHosts
end XCryptoSsh
