import XCryptoSsh.Cipher
import XCryptoSsh.HandshakeTransport

namespace XCryptoSsh
open Go Call
set_option autoImplicit true

structure KexInitMsg where
  kexAlgos : List String
  serverHostKeyAlgos : List String
  ciphersClientServer : List String
  ciphersServerClient : List String
  macsClientServer : List String
  macsServerClient : List String
  compressionClientServer : List String
  compressionServerClient : List String
  deriving DecidableEq, Repr

/-- A list of names as `%v` prints it. -/
def formatNames (names : List String) : String := "[" ++ " ".intercalate names ++ "]"

def findCommon (what : String) (client server : List String) : Except Err String :=
  match client.find? fun c => server.any fun s => c == s with
  | some c => .ok c
  | none => .error (.text ("ssh: no common algorithm for " ++ what ++ "; client offered: " ++
      formatNames client ++ ", server offered: " ++ formatNames server))

theorem mem_of_findCommon (h : findCommon what client server = .ok name) :
    name ∈ client ∧ name ∈ server := by
  unfold findCommon at h
  split at h
  · rename_i c hc
    cases h
    have hany := List.find?_some (p := fun c => server.any fun s => c == s) hc
    obtain ⟨s, hs, he⟩ := List.any_eq_true.mp hany
    have hname : name = s := beq_iff_eq.mp he
    exact ⟨List.mem_of_find?_eq_some hc, hname ▸ hs⟩
  · cases h

def findAgreedAlgorithms (client server : KexInitMsg) : Except Err Algorithms := do
  let kex ← findCommon "key exchange" client.kexAlgos server.kexAlgos
  let hostKey ← findCommon "host key" client.serverHostKeyAlgos server.serverHostKeyAlgos
  let wCipher ← findCommon "client to server cipher" client.ciphersClientServer
    server.ciphersClientServer
  let rCipher ← findCommon "server to client cipher" client.ciphersServerClient
    server.ciphersServerClient
  let wMac ← findCommon "client to server MAC" client.macsClientServer server.macsClientServer
  let rMac ← findCommon "server to client MAC" client.macsServerClient server.macsServerClient
  let wCompression ← findCommon "client to server compression" client.compressionClientServer
    server.compressionClientServer
  let rCompression ← findCommon "server to client compression" client.compressionServerClient
    server.compressionServerClient
  pure ⟨kex, hostKey, ⟨wCipher, wMac, wCompression⟩, ⟨rCipher, rMac, rCompression⟩⟩

/-- The negotiation in `enterKeyExchange`, from the message the endpoint sent and the one it got. -/
def agreedAlgorithms (isServer : Bool) (own other : KexInitMsg) : Except Err Algorithms :=
  if isServer then findAgreedAlgorithms other own else findAgreedAlgorithms own other

structure CipherSpec where
  dir : Direction
  algs : DirectionAlgorithms

structure KeyChange where
  reader : CipherSpec
  writer : CipherSpec

/-- The arguments of the two `newPacketCipher` calls of `prepareKeyChange`; the directions are those
`newTransport` has set. -/
def keyChange (isClient : Bool) (algs : Algorithms) : KeyChange :=
  { reader := ⟨if isClient then serverKeys else clientKeys, algs.r⟩,
    writer := ⟨if isClient then clientKeys else serverKeys, algs.w⟩ }

/-- The ciphers a transport reads and writes with after the next NEWKEYS. -/
def prepareKeyChange (P : Primitives) (isClient : Bool) (algs : Algorithms) (kex : KexResult) :
    Call Err Unit (PacketCipher × PacketCipher) := do
  let change := keyChange isClient algs
  let reader ← newPacketCipher P change.reader.dir change.reader.algs kex
  let writer ← newPacketCipher P change.writer.dir change.writer.algs kex
  pure (reader, writer)

/-- The two ends of each direction install the same algorithms. -/
def KeyChange.Agree (client server : KeyChange) : Prop :=
  client.writer = server.reader ∧ server.writer = client.reader

theorem keyChange_agree_iff (algs : Algorithms) :
    (keyChange true algs).Agree (keyChange false algs) ↔ algs.w = algs.r := by
  constructor
  · intro h
    exact congrArg CipherSpec.algs h.1
  · intro h
    simp [KeyChange.Agree, keyChange, h]

theorem findCommon_of_ok (h : findCommon what client server = .ok name) (what' : String) :
    findCommon what' client server = .ok name := by
  unfold findCommon at h ⊢
  split at h
  · exact h
  · cases h

theorem agreed_eq_iff (what : String) (h : findAgreedAlgorithms client server = .ok algs) :
    algs.w = algs.r ↔
      findCommon what client.ciphersClientServer server.ciphersClientServer =
        findCommon what client.ciphersServerClient server.ciphersServerClient ∧
      findCommon what client.macsClientServer server.macsClientServer =
        findCommon what client.macsServerClient server.macsServerClient ∧
      findCommon what client.compressionClientServer server.compressionClientServer =
        findCommon what client.compressionServerClient server.compressionServerClient := by
  simp only [findAgreedAlgorithms, except_bind_eq_ok] at h
  obtain ⟨kex, -, key, -, c, hc, c', hc', m, hm, m', hm', z, hz, z', hz', h⟩ := h
  cases h
  simp only [findCommon_of_ok hc what, findCommon_of_ok hc' what, findCommon_of_ok hm what,
    findCommon_of_ok hm' what, findCommon_of_ok hz what, findCommon_of_ok hz' what,
    DirectionAlgorithms.mk.injEq, Except.ok.injEq]

/-- `findAgreedAlgorithms` knows no role: both ends write with what was agreed for client to server,
so the same has to come out of the lists for server to client. -/
theorem installed_agree_iff (clientInit serverInit : KexInitMsg) (what : String)
    (h : findAgreedAlgorithms clientInit serverInit = .ok algs) :
    ∃ client server, agreedAlgorithms false clientInit serverInit = .ok client ∧
      agreedAlgorithms true serverInit clientInit = .ok server ∧
      ((keyChange true client).Agree (keyChange false server) ↔
        findCommon what clientInit.ciphersClientServer serverInit.ciphersClientServer =
          findCommon what clientInit.ciphersServerClient serverInit.ciphersServerClient ∧
        findCommon what clientInit.macsClientServer serverInit.macsClientServer =
          findCommon what clientInit.macsServerClient serverInit.macsServerClient ∧
        findCommon what clientInit.compressionClientServer serverInit.compressionClientServer =
          findCommon what clientInit.compressionServerClient
            serverInit.compressionServerClient) :=
  ⟨algs, algs, h, h, (keyChange_agree_iff algs).trans (agreed_eq_iff what h)⟩

def asymmetricInit : KexInitMsg where
  kexAlgos := ["curve25519-sha256@libssh.org"]
  serverHostKeyAlgos := ["ssh-rsa"]
  ciphersClientServer := ["aes128-ctr"]
  ciphersServerClient := ["aes256-ctr"]
  macsClientServer := ["hmac-sha1"]
  macsServerClient := ["hmac-sha1"]
  compressionClientServer := ["none"]
  compressionServerClient := ["none"]

def symmetricInit : KexInitMsg := { asymmetricInit with ciphersServerClient := ["aes128-ctr"] }

/-- The client writes with aes128-ctr what the server reads with aes256-ctr. -/
theorem installed_disagree :
    ∃ client server, agreedAlgorithms false asymmetricInit asymmetricInit = .ok client ∧
      agreedAlgorithms true asymmetricInit asymmetricInit = .ok server ∧
      (keyChange true client).writer.algs.cipher = "aes128-ctr" ∧
      (keyChange false server).reader.algs.cipher = "aes256-ctr" ∧
      ¬ (keyChange true client).Agree (keyChange false server) := by
  refine ⟨_, _, rfl, rfl, rfl, rfl, ?_⟩
  rw [keyChange_agree_iff]
  decide

theorem installed_agree_iff_symmetric :
    ∃ client server, agreedAlgorithms false symmetricInit symmetricInit = .ok client ∧
      agreedAlgorithms true symmetricInit symmetricInit = .ok server ∧
      (keyChange true client).Agree (keyChange false server) := by
  obtain ⟨client, server, hc, hs, hagree⟩ := installed_agree_iff symmetricInit symmetricInit "" rfl
  exact ⟨client, server, hc, hs, hagree.mpr ⟨rfl, rfl, rfl⟩⟩

end XCryptoSsh
