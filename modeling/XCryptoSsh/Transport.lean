import XCryptoSsh.Negotiation
import XCryptoSsh.Keys

namespace XCryptoSsh
open Go Call List
set_option autoImplicit true

def msgDisconnect : UInt8 := 1

def disconnectMsg : StructType :=
  ⟨"disconnectMsg", [1], [⟨"Reason", .uint32⟩, ⟨"Message", .string⟩, ⟨"Language", .string⟩],
    by simp, by simp⟩

/-- One direction of a connection; `κ` is the type of packet ciphers. The Go channel
`pendingKeyChange` holds at most one of them. -/
structure ConnectionState (κ : Type) where
  packetCipher : κ
  seqNum : UInt32
  pendingKeyChange : Option κ

namespace ConnectionState

variable {κ : Type}

section

variable (s : ConnectionState κ)

def received : Bytes → Except Err Bytes × ConnectionState κ
  | [] => (.error (.text "ssh: zero length packet"), s)
  | x :: body =>
    if x = msgNewKeys then
      match s.pendingKeyChange with
      | some cipher => (.ok (x :: body), { s with packetCipher := cipher, pendingKeyChange :=
          none })
      | none => (.error (.text "ssh: got bogus newkeys message."), s)
    else if x = msgDisconnect then
      match unmarshal disconnectMsg (x :: body) with
      | .error e => (.error e, s)
      | .ok (reason, message, _) =>
        (.error (.text ("ssh: disconnect, reason " ++ toString (UInt32.toNat reason) ++ ": " ++
          showBytes message)), s)
    else (.ok (x :: body), s)

/-- `readPacket`, given what the cipher returns; the sequence number counts failed reads too. -/
def readPacket (r : Except Err Bytes) :
    Except Err Bytes × ConnectionState κ :=
  let s := { s with seqNum := s.seqNum + 1 }
  match r with
  | .error e => (.error e, s)
  | .ok packet => s.received packet

/-- `writePacket` when the cipher and the flush succeed; `none` when it panics. -/
def writePacket (packet : Bytes) : Option (ConnectionState κ) :=
  let s := { s with seqNum := s.seqNum + 1 }
  if packet.head? = some msgNewKeys then
    match s.pendingKeyChange with
    | some cipher => some { s with packetCipher := cipher, pendingKeyChange := none }
    | none => none
  else some s

/-- A cipher is sent to `pendingKeyChange`; when the channel is full only a stop ends the wait. -/
def offer (cipher : κ) : Option (ConnectionState κ) :=
  match s.pendingKeyChange with
  | none => some { s with pendingKeyChange := some cipher }
  | some _ => none

end

theorem readPacket_eq_ok {s s' : ConnectionState κ} (h : s.readPacket r = (.ok packet, s')) :
    r = .ok packet ∧ s'.seqNum = s.seqNum + 1 ∧
      (s.pendingKeyChange = none →
        packet.head? ≠ some msgNewKeys ∧ s'.pendingKeyChange = none) := by
  cases r with
  | error e => cases h
  | ok p =>
    unfold readPacket received at h
    dsimp only at h
    split at h
    · cases h
    rename_i x body
    split at h
    · split at h
      · rename_i hpending
        cases h
        exact ⟨rfl, rfl, fun hn => absurd (hpending.symm.trans hn) (Option.some_ne_none _)⟩
      · cases h
    rename_i hx
    split at h
    · split at h <;> cases h
    · cases h
      exact ⟨rfl, rfl, fun hn => ⟨by simpa using hx, hn⟩⟩

theorem writePacket_seqNum {s : ConnectionState κ} (h : s.writePacket packet = some s') :
    s'.seqNum = s.seqNum + 1 := by
  unfold writePacket at h
  dsimp only at h
  split at h
  · split at h
    · cases h
      rfl
    · cases h
  · cases h
    rfl

theorem offer_seqNum {s : ConnectionState κ} (h : s.offer cipher = some s') :
    s'.seqNum = s.seqNum := by
  unfold offer at h
  split at h
  · cases h
    rfl
  · cases h

end ConnectionState

/-- A transport together with what the cipher of its reader returns, call after call, and the
packets it has written. -/
structure Transport (κ : Type) where
  reader : ConnectionState κ
  writer : ConnectionState κ
  isClient : Bool
  incoming : List (Except Err Bytes)
  outgoing : List Bytes

namespace Transport

variable {κ : Type}

def new (unkeyed : κ) (isClient : Bool) (incoming : List (Except Err Bytes)) : Transport κ where
  reader := ⟨unkeyed, 0, none⟩
  writer := ⟨unkeyed, 0, none⟩
  isClient := isClient
  incoming := incoming
  outgoing := []

/-- The loop of `readPacket`, which drops IGNORE and DEBUG; a read that nothing ends fails. -/
def readFrom (s : ConnectionState κ) :
    List (Except Err Bytes) → Except Err Bytes × ConnectionState κ × List (Except Err Bytes)
  | [] => (.error .eof, s, [])
  | r :: incoming =>
    match s.readPacket r with
    | (.error e, s) => (.error e, s, incoming)
    | (.ok p, s) =>
      if p.head? = some msgIgnore ∨ p.head? = some msgDebug then readFrom s incoming
      else (.ok p, s, incoming)

def readPacket : Call Err (Transport κ) Bytes := fun t =>
  let r := readFrom t.reader t.incoming
  ofExcept r.1 { t with reader := r.2.1, incoming := r.2.2 }

def writePacket (packet : Bytes) : Call Err (Transport κ) Unit := fun t =>
  match t.writer.writePacket packet with
  | some writer => (.ok (), { t with writer := writer, outgoing := t.outgoing ++ [packet] })
  | none => (.panic, t)

/-- `newCipher` stands for `newPacketCipher`. -/
def prepareKeyChange (newCipher : CipherSpec → KexResult → Except Err κ) (algs : Algorithms)
    (kex : KexResult) : Call Err (Transport κ) Unit := fun t =>
  let change := keyChange t.isClient algs
  (do
    let cipher ← ofExcept (newCipher change.reader kex)
    let reader ← orFail (t.reader.offer cipher) .eof
    let cipher ← ofExcept (newCipher change.writer kex)
    let writer ← orFail (t.writer.offer cipher) .eof
    fun t => (.ok (), { t with reader := reader, writer := writer }) :
      Call Err (Transport κ) Unit) t

def noise : Except Err Bytes → Bool
  | .ok p => p.head? == some msgIgnore || p.head? == some msgDebug
  | .error _ => false

theorem readFrom_eq_ok {s s' : ConnectionState κ} {incoming : List (Except Err Bytes)}
    (h : readFrom s incoming = (.ok p, s', rest)) :
    ∃ dropped, incoming = dropped ++ .ok p :: rest ∧ (∀ r ∈ dropped, noise r = true) ∧
      noise (.ok p) = false ∧ s'.seqNum = s.seqNum + .ofNat (dropped.length + 1) ∧
      (s.pendingKeyChange = none →
        p.head? ≠ some msgNewKeys ∧ s'.pendingKeyChange = none) := by
  induction incoming generalizing s with
  | nil => cases h
  | cons r incoming ih =>
    rw [readFrom] at h
    split at h
    · cases h
    rename_i q s₁ hq
    obtain ⟨rfl, hseq, hpending⟩ := ConnectionState.readPacket_eq_ok hq
    split at h
    · rename_i hnoise
      obtain ⟨dropped, rfl, hdropped, hp, hseq', hpending'⟩ := ih h
      refine ⟨.ok q :: dropped, rfl, ?_, hp, ?_, fun hn => hpending' (hpending hn).2⟩
      · exact forall_mem_cons.mpr ⟨by simpa [noise] using hnoise, hdropped⟩
      · rw [hseq', hseq, length_cons, Nat.add_comm (_ + 1) 1, UInt32.ofNat_add 1, UInt32.add_assoc]
        rfl
    · rename_i hnoise
      cases h
      exact ⟨[], rfl, nofun, by simpa [noise] using hnoise, hseq, hpending⟩

theorem readPacket_eq_ok {t t' : Transport κ} (h : readPacket t = (.ok p, t')) :
    readFrom t.reader t.incoming = (.ok p, t'.reader, t'.incoming) ∧ t'.writer = t.writer := by
  obtain ⟨hp, rfl⟩ := ofExcept_eq_ok.mp h
  exact ⟨Prod.ext hp rfl, rfl⟩

theorem writePacket_eq_ok {t t' : Transport κ} (h : writePacket packet t = (.ok u, t')) :
    t'.outgoing = t.outgoing ++ [packet] ∧ t'.incoming = t.incoming ∧ t'.reader = t.reader ∧
      t'.writer.seqNum = t.writer.seqNum + 1 := by
  unfold writePacket at h
  split at h
  · rename_i w hw
    cases h
    exact ⟨rfl, rfl, rfl, ConnectionState.writePacket_seqNum hw⟩
  · cases h

theorem prepareKeyChange_eq_ok {t t' : Transport κ}
    (h : prepareKeyChange newCipher algs kex t = (.ok u, t')) :
    t'.incoming = t.incoming ∧ t'.reader.seqNum = t.reader.seqNum ∧
      t'.writer.seqNum = t.writer.seqNum := by
  unfold prepareKeyChange at h
  obtain ⟨cipher, -, h⟩ := ofExcept_bind_eq_ok.mp h
  obtain ⟨reader, hr, h⟩ := orFail_bind_eq_ok.mp h
  obtain ⟨cipher', -, h⟩ := ofExcept_bind_eq_ok.mp h
  obtain ⟨writer, hw, h⟩ := orFail_bind_eq_ok.mp h
  cases h
  exact ⟨rfl, ConnectionState.offer_seqNum hr, ConnectionState.offer_seqNum hw⟩

end Transport
end XCryptoSsh
