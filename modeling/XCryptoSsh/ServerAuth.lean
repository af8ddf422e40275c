import XCryptoSsh.Certs
import XCryptoSsh.Kex

namespace XCryptoSsh
open Go Call
set_option autoImplicit true

def serviceSSH : Bytes := ascii "ssh-connection"

def msgUserAuthRequest : UInt8 := 50
def msgUserAuthSuccess : UInt8 := 52
def msgUserAuthInfoResponse : UInt8 := 61

def userAuthRequestMsg : StructType where
  name := "userAuthRequestMsg"
  tags := [50]
  fields := [⟨"User", .string⟩, ⟨"Service", .string⟩, ⟨"Method", .string⟩, ⟨"Payload", .rest⟩]
  fields_ne := by simp
  rest_last := by simp

def userAuthFailureMsg : StructType :=
  ⟨"userAuthFailureMsg", [51], [⟨"Methods", .names⟩, ⟨"PartialSuccess", .bool⟩], by simp, by simp⟩

def userAuthPubKeyOkMsg : StructType :=
  ⟨"userAuthPubKeyOkMsg", [60], [⟨"Algo", .string⟩, ⟨"PubKey", .bytes⟩], by simp, by simp⟩

def userAuthInfoRequestMsg : StructType where
  name := "userAuthInfoRequestMsg"
  tags := [60]
  fields := [⟨"User", .string⟩, ⟨"Instruction", .string⟩, ⟨"DeprecatedLanguage", .string⟩,
    ⟨"NumPrompts", .uint32⟩, ⟨"Prompts", .rest⟩]
  fields_ne := by simp
  rest_last := by simp

structure UserAuthRequest where
  user : Bytes
  service : Bytes
  method : Bytes
  payload : Bytes
  deriving DecidableEq

def UserAuthRequest.ofVals (m : Vals userAuthRequestMsg.fields) : UserAuthRequest :=
  let (user, service, method, payload, _) := m
  ⟨user, service, method, payload⟩

def signedForAuth : StructType :=
  wireStruct [⟨"Session", .bytes⟩, ⟨"Type", .uint8⟩, ⟨"User", .string⟩, ⟨"Service", .string⟩,
    ⟨"Method", .string⟩, ⟨"Sign", .bool⟩, ⟨"Algo", .bytes⟩, ⟨"PubKey", .bytes⟩] (by simp) (by simp)

def buildDataSignedForAuth (sessionID : Bytes) (req : UserAuthRequest) (algo pubKey : Bytes) :
    Option Bytes :=
  marshal signedForAuth (sessionID, msgUserAuthRequest, req.user, req.service, req.method, true,
    algo, pubKey, ())

def serverAuthError (errors : List Err) : Err :=
  .text ("[" ++ ", ".intercalate (errors.map Err.error) ++ "]")

/-- The names of the plain keys, and of all certificates but the Ed25519 one. -/
def isAcceptableAlgo (algo : Bytes) : Bool :=
  (KeyAlgo.ofName algo).isSome ||
    [KeyAlgo.rsa, .dsa, .ecdsa256, .ecdsa384, .ecdsa521].any fun a => ascii a.certName == algo

inductive RemoteAddr where
  | unknown
  | other (text : String)
  | tcp (ip : Bytes) (text : String)

/-- What the check of a source address takes from the package `net`. -/
structure Addresses where
  remoteAddr : RemoteAddr
  parseIP : Bytes → Option Bytes
  equal : Bytes → Bytes → Bool
  /-- The network, as the test whether it contains an address, or the error text. -/
  parseCIDR : Bytes → Except String (Bytes → Bool)

/-- The loop of `checkSourceAddress`; `none` when no entry matches. -/
def matchSourceAddress (A : Addresses) (ip : Bytes) : List Bytes → Option (Except Err Unit)
  | [] => none
  | sourceAddr :: sourceAddrs =>
    match A.parseIP sourceAddr with
    | some allowedIP =>
      if A.equal allowedIP ip then some (.ok ()) else matchSourceAddress A ip sourceAddrs
    | none =>
      match A.parseCIDR sourceAddr with
      | .error e => some (.error (.text ("ssh: error parsing source-address restriction " ++
          quoteBytes sourceAddr ++ ": " ++ e)))
      | .ok contains =>
        if contains ip then some (.ok ()) else matchSourceAddress A ip sourceAddrs

def checkSourceAddress (A : Addresses) (sourceAddrs : Bytes) : Option Err :=
  match A.remoteAddr with
  | .unknown =>
    some (.text "ssh: no address known for client, but source-address match required")
  | .other text => some (.text ("ssh: remote address " ++ text ++
      " is not an TCP address when checking source-address match"))
  | .tcp ip text =>
    match matchSourceAddress A ip (sourceAddrs.splitOn comma) with
    | some (.ok _) => none
    | some (.error e) => some e
    | none => some (.text ("ssh: remote address " ++ text ++
        " is not allowed because of source-address restriction"))

/-- The packets a transport still delivers, those written to it, and what each write returns. -/
structure PacketConn where
  incoming : List (Except Err Bytes)
  outgoing : List Bytes
  writeError : Nat → Option Err

structure CachedPubKey where
  user : Bytes
  pubKeyData : Bytes
  result : Option Err
  perms : Option Permissions

def maxCachedPubKeys : Nat := 16

def pubKeyCacheGet (cache : List CachedPubKey) (user pubKeyData : Bytes) : Option CachedPubKey :=
  cache.find? fun k => k.user == user && k.pubKeyData == pubKeyData

def pubKeyCacheAdd (cache : List CachedPubKey) (candidate : CachedPubKey) : List CachedPubKey :=
  if cache.length < maxCachedPubKeys then cache ++ [candidate] else cache

/-- A request the server has read and the failures counted before it, or a call of a callback and
what it returned. -/
inductive AuthEvent where
  | request (req : UserAuthRequest) (authFailures : Int)
  | password (user password : Bytes) (perms : Option Permissions) (err : Option Err)
  | keyboardInteractive (user : Bytes) (perms : Option Permissions) (err : Option Err)
  | publicKey (user pubKeyData : Bytes) (key : PublicKey) (perms : Option Permissions)
      (err : Option Err)

/-- The connection and the variables of `serverAuthenticate`; `env` is the state of the callbacks
and `events` the history of the run. -/
structure AuthState (ω : Type) where
  conn : PacketConn
  user : Bytes
  env : ω
  cache : List CachedPubKey
  authFailures : Int
  authErrs : List Err
  events : List AuthEvent

def AuthState.new (conn : PacketConn) (env : ω) : AuthState ω where
  conn := conn
  user := []
  env := env
  cache := []
  authFailures := 0
  authErrs := []
  events := []

/-- A keyboard-interactive callback at work: it has returned, or it asks the client and goes on with
the answers or the error. -/
inductive Interaction (ω : Type) where
  | done (perms : Option Permissions) (err : Option Err) (env : ω)
  | challenge (user instruction : Bytes) (questions : List Bytes) (echos : List Bool)
      (next : Except Err (List Bytes) → Interaction ω)

/-- The fields of a `ServerConfig` that authentication reads. A callback is given its state and the
user of the connection. -/
structure ServerConfig (ω : Type) where
  noClientAuth : Bool
  maxAuthTries : Int
  passwordCallback : Option (ω → (user password : Bytes) → Option Permissions × Option Err × ω)
  publicKeyCallback :
    Option (ω → (user : Bytes) → PublicKey → Option Permissions × Option Err × ω)
  keyboardInteractiveCallback : Option (ω → (user : Bytes) → Interaction ω)
  authLogCallback : Option (ω → (user method : Bytes) → Option Err → ω)

structure AuthEnv (ω : Type) where
  config : ServerConfig ω
  sessionID : Bytes
  elliptic : Elliptic
  verifiers : Verifiers
  addresses : Addresses

/-- How the switch on the method ends: an accepted query is answered and the loop goes on; otherwise
`authErr` and `perms` are what it leaves. -/
inductive AuthOutcome where
  | query
  | judged (authErr : Option Err) (perms : Option Permissions)

section Calls

variable {ω : Type}

def AuthState.read : Call Err (AuthState ω) Bytes := fun s =>
  match s.conn.incoming with
  | [] => (.error .eof, s)
  | r :: incoming => ofExcept r { s with conn.incoming := incoming }

def AuthState.write (packet : Bytes) : Call Err (AuthState ω) Unit := fun s =>
  match s.conn.writeError s.conn.outgoing.length with
  | some e => (.error e, s)
  | none => (.ok (), { s with conn.outgoing := s.conn.outgoing ++ [packet] })

def AuthState.modify (f : AuthState ω → AuthState ω) : Call Err (AuthState ω) Unit :=
  fun s => (.ok (), f s)

def AuthState.get (f : AuthState ω → α) : Call Err (AuthState ω) α := fun s => (.ok (f s), s)

open AuthState (read write modify get)

def writeMsg (packet : Option Bytes) : Call Err (AuthState ω) Unit := do
  let packet ← inRange packet
  write packet

def appendPrompts (questions : List Bytes) (echos : List Bool) : Bytes :=
  (questions.zip echos).foldl
    (fun prompts p => prompts ++ encodeString p.1 ++ [if p.2 then 1 else 0]) []

def parseAnswers : Nat → Bytes → Except Err (List Bytes)
  | 0, packet =>
    if packet.length ≠ 0 then .error (.text "ssh: junk at end of message") else .ok []
  | n + 1, packet => do
    let (ans, rest) ← orErr (parseError msgUserAuthInfoResponse) (parseString packet)
    let answers ← parseAnswers n rest
    pure (ans :: answers)

def infoResponse (questions : List Bytes) (packet : Bytes) : Except Err (List Bytes) :=
  match parseUint32 packet with
  | none => .error (parseError msgUserAuthInfoResponse)
  | some (n, packet) =>
    if n ≠ questions.length then .error (parseError msgUserAuthInfoResponse)
    else parseAnswers n packet

/-- `Challenge`, which leaves the user of the message empty. -/
def challenge (instruction : Bytes) (questions : List Bytes) (echos : List Bool) :
    Call Err (AuthState ω) (List Bytes) := do
  failIf (questions.length ≠ echos.length)
    (.text "ssh: echos and questions must have equal length")
  writeMsg (marshal userAuthInfoRequestMsg ([], instruction, [], .ofNat questions.length,
    appendPrompts questions echos, ()))
  let packet ← read
  let tag ← inRange packet.head?
  failIf (tag ≠ msgUserAuthInfoResponse) (unexpectedMessageError msgUserAuthInfoResponse tag)
  ofExcept (infoResponse questions packet.tail)

def Interaction.run : Interaction ω → Call Err (AuthState ω) (Option Permissions × Option Err)
  | .done perms err env => fun s => (.ok (perms, err), { s with env := env })
  | .challenge _ instruction questions echos next => fun s =>
    match XCryptoSsh.challenge instruction questions echos s with
    | (.ok answers, s) => (next (.ok answers)).run s
    | (.error e, s) => (next (.error e)).run s
    | (.panic, s) => (.panic, s)

variable (env : AuthEnv ω) (req : UserAuthRequest)

def logEvent (e : AuthEvent) : Call Err (AuthState ω) Unit :=
  modify fun s => { s with events := s.events ++ [e] }

/-- The first attempt of this method does not count. -/
def authNone : Call Err (AuthState ω) AuthOutcome := do
  modify fun s => if s.authFailures = 0 then { s with authFailures := s.authFailures - 1 } else s
  pure (.judged (if env.config.noClientAuth then none else some (.text "no auth passed yet")) none)

def parsePassword (payload : Bytes) : Except Err Bytes :=
  if payload.head? ≠ some 0 then .error (parseError msgUserAuthRequest)
  else
    match parseString payload.tail with
    | some (password, []) => .ok password
    | _ => .error (parseError msgUserAuthRequest)

def callPassword
    (callback : ω → (user password : Bytes) → Option Permissions × Option Err × ω)
    (password : Bytes) : Call Err (AuthState ω) (Option Permissions × Option Err) := fun s =>
  let (perms, err, env) := callback s.env s.user password
  (.ok (perms, err),
    { s with
      env := env
      events := s.events ++ [.password s.user password perms err] })

def authPassword : Call Err (AuthState ω) AuthOutcome :=
  match env.config.passwordCallback with
  | none => pure (.judged (some (.text "ssh: password auth not configured")) none)
  | some callback => do
    let password ← ofExcept (parsePassword req.payload)
    let r ← callPassword callback password
    pure (.judged r.2 r.1)

def authKeyboardInteractive : Call Err (AuthState ω) AuthOutcome :=
  match env.config.keyboardInteractiveCallback with
  | none => pure (.judged (some (.text "ssh: keyboard-interactive auth not configubred")) none)
  | some callback => do
    let interaction ← get fun s => callback s.env s.user
    let r ← interaction.run
    let user ← get fun s => s.user
    logEvent (.keyboardInteractive user r.1 r.2)
    pure (.judged r.2 r.1)

def sourceAddressOf (perms : Option Permissions) : Bytes :=
  match perms with
  | some p => (p.criticalOptions.lookup sourceAddressCriticalOption).getD []
  | none => []

def candidateResult (A : Addresses) (perms : Option Permissions) : Option Err → Option Err
  | some e => some e
  | none =>
    if sourceAddressOf perms ≠ [] then checkSourceAddress A (sourceAddressOf perms) else none

def callPublicKey
    (callback : ω → (user : Bytes) → PublicKey → Option Permissions × Option Err × ω)
    (pubKeyData : Bytes) (key : PublicKey) : Call Err (AuthState ω) CachedPubKey := fun s =>
  let (perms, err, ω') := callback s.env s.user key
  let candidate : CachedPubKey :=
    ⟨s.user, pubKeyData, candidateResult env.addresses perms err, perms⟩
  (.ok candidate,
    { s with
      env := ω'
      cache := pubKeyCacheAdd s.cache candidate
      events := s.events ++ [.publicKey s.user pubKeyData key perms err] })

/-- The cached candidate, or the one the callback judges now. -/
def lookupPublicKey
    (callback : ω → (user : Bytes) → PublicKey → Option Permissions × Option Err × ω)
    (pubKeyData : Bytes) (key : PublicKey) : Call Err (AuthState ω) CachedPubKey := fun s =>
  match pubKeyCacheGet s.cache s.user pubKeyData with
  | some candidate => (.ok candidate, s)
  | none => callPublicKey env callback pubKeyData key s

def authQuery (algo pubKeyData payload : Bytes) (candidate : CachedPubKey) :
    Call Err (AuthState ω) AuthOutcome := do
  failIf (payload.length > 0) (parseError msgUserAuthRequest)
  match candidate.result with
  | none => do
    writeMsg (marshal userAuthPubKeyOkMsg (algo, pubKeyData, ()))
    pure .query
  | some e => pure (.judged (some e) none)

def parseSignatureOnly (payload : Bytes) : Except Err Signature :=
  match parseSignature payload with
  | some (sig, []) => .ok sig
  | _ => .error (parseError msgUserAuthRequest)

def authSigned (algo pubKeyData payload : Bytes) (key : PublicKey) (candidate : CachedPubKey) :
    Call Err (AuthState ω) AuthOutcome := do
  let sig ← ofExcept (parseSignatureOnly payload)
  if isAcceptableAlgo sig.format then do
    let signedData ← inRange (buildDataSignedForAuth env.sessionID req algo pubKeyData)
    ofResult (key.verify env.verifiers signedData sig)
    pure (.judged candidate.result candidate.perms)
  else pure (.judged (some (.text "no auth passed yet")) none)

def authPublicKey : Call Err (AuthState ω) AuthOutcome :=
  match env.config.publicKeyCallback with
  | none => pure (.judged (some (.text "ssh: publickey auth not configured")) none)
  | some callback => do
    let flag ← orFail req.payload.head? (parseError msgUserAuthRequest)
    let r ← orFail (parseString req.payload.tail) (parseError msgUserAuthRequest)
    let algo := r.1
    if isAcceptableAlgo algo then do
      let r ← orFail (parseString r.2) (parseError msgUserAuthRequest)
      let pubKeyData := r.1
      let key ← ofExcept (parsePublicKey env.elliptic pubKeyData)
      let candidate ← lookupPublicKey env callback pubKeyData key
      if flag = 0 then authQuery algo pubKeyData r.2 candidate
      else authSigned env req algo pubKeyData r.2 key candidate
    else
      pure (.judged (some (.text ("ssh: algorithm " ++ quoteBytes algo ++ " not accepted"))) none)

def authMethod : Call Err (AuthState ω) AuthOutcome :=
  if req.method = ascii "none" then authNone env
  else if req.method = ascii "password" then authPassword env req
  else if req.method = ascii "keyboard-interactive" then authKeyboardInteractive env
  else if req.method = ascii "publickey" then authPublicKey env req
  else pure (.judged (some (.text ("ssh: unknown method " ++ quoteBytes req.method))) none)

def checkTries : Call Err (AuthState ω) Unit := do
  let failures ← get AuthState.authFailures
  if failures ≥ env.config.maxAuthTries ∧ env.config.maxAuthTries > 0 then do
    writeMsg (marshal disconnectMsg ((2 : UInt32), ascii "too many authentication failures", [],
      ()))
    fail (.text "ssh: disconnect, reason 2: too many authentication failures")
  else pure ()

/-- Reads a request; the end of the connection gives the errors of all attempts so far. -/
def readRequest : Call Err (AuthState ω) UserAuthRequest := fun s =>
  match (read : Call Err (AuthState ω) Bytes) s with
  | (.ok packet, s) =>
    ofExcept ((unmarshal userAuthRequestMsg packet).map UserAuthRequest.ofVals) s
  | (.error e, s) => (.error (if e = .eof then serverAuthError s.authErrs else e), s)
  | (.panic, s) => (.panic, s)

def beginRequest : Call Err (AuthState ω) Unit :=
  modify fun s =>
    { s with
      user := req.user
      events := s.events ++ [.request req s.authFailures] }

/-- A nil error ends the loop, so what `authErrs` then holds is never read. -/
def logAttempt (authErr : Option Err) : Call Err (AuthState ω) Unit :=
  modify fun s =>
    { s with
      authErrs := s.authErrs ++ authErr.toList
      env := match env.config.authLogCallback with
        | some log => log s.env s.user req.method authErr
        | none => s.env }

def failureMethods (config : ServerConfig ω) : List Bytes :=
  (if config.passwordCallback.isSome then [ascii "password"] else []) ++
  (if config.publicKeyCallback.isSome then [ascii "publickey"] else []) ++
  (if config.keyboardInteractiveCallback.isSome then [ascii "keyboard-interactive"] else [])

def refuse : Call Err (AuthState ω) Unit := do
  modify fun s => { s with authFailures := s.authFailures + 1 }
  failIf ((failureMethods env.config).length = 0)
    (.text "ssh: no authentication methods configured but NoClientAuth is also false")
  writeMsg (marshal userAuthFailureMsg (failureMethods env.config, false, ()))

/-- What follows the switch: the permissions when the client is let in. -/
def settle : AuthOutcome → Call Err (AuthState ω) (Option (Option Permissions))
  | .query => pure none
  | .judged none perms => do
    logAttempt env req none
    pure (some perms)
  | .judged (some e) _ => do
    logAttempt env req (some e)
    refuse env
    pure none

def authRound : Call Err (AuthState ω) (Option (Option Permissions)) := do
  checkTries env
  let req ← readRequest
  failIf (req.service ≠ serviceSSH)
    (.text ("ssh: client attempted to negotiate for unknown service: " ++ showBytes req.service))
  beginRequest req
  let outcome ← authMethod env req
  settle env req outcome

def userAuthLoop : Nat → Call Err (AuthState ω) (Option Permissions)
  | 0 => fail .eof
  | n + 1 => do
    let r ← authRound env
    match r with
    | some perms => pure perms
    | none => userAuthLoop n

/-- Every round reads a packet, so the number of packets bounds the rounds. -/
def serverAuthenticate : Call Err (AuthState ω) (Option Permissions) := fun s =>
  (do
    let perms ← userAuthLoop env (s.conn.incoming.length + 1)
    write [msgUserAuthSuccess]
    pure perms : Call Err (AuthState ω) (Option Permissions)) s

end Calls

end XCryptoSsh
