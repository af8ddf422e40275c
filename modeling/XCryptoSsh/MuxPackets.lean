import XCryptoSsh.ChannelEnds
import XCryptoSsh.MessagesChecked
import XCryptoSsh.ServerAuth

namespace XCryptoSsh
open Go.Result (ok_bind)
set_option autoImplicit true

open Go List Channel Endpoint UInt32
open Machine

def serviceRequestMsg : StructType :=
  ⟨"serviceRequestMsg", [5], [⟨"Service", .string⟩], by simp, by simp⟩

def serviceAcceptMsg : StructType :=
  ⟨"serviceAcceptMsg", [6], [⟨"Service", .string⟩], by simp, by simp⟩

def globalRequestMsg : StructType :=
  ⟨"globalRequestMsg", [80], [⟨"Type", .string⟩, ⟨"WantReply", .bool⟩, ⟨"Data", .rest⟩], by simp,
    by simp⟩

def globalRequestSuccessMsg : StructType :=
  ⟨"globalRequestSuccessMsg", [81], [⟨"Data", .rest⟩], by simp, by simp⟩

def globalRequestFailureMsg : StructType :=
  ⟨"globalRequestFailureMsg", [82], [⟨"Data", .rest⟩], by simp, by simp⟩

def channelOpenMsg : StructType :=
  ⟨"channelOpenMsg", [90], [⟨"ChanType", .string⟩, ⟨"PeersId", .uint32⟩, ⟨"PeersWindow", .uint32⟩,
    ⟨"MaxPacketSize", .uint32⟩, ⟨"TypeSpecificData", .rest⟩], by simp, by simp⟩

def channelOpenConfirmMsg : StructType :=
  ⟨"channelOpenConfirmMsg", [91], [⟨"PeersId", .uint32⟩, ⟨"MyId", .uint32⟩, ⟨"MyWindow", .uint32⟩,
    ⟨"MaxPacketSize", .uint32⟩, ⟨"TypeSpecificData", .rest⟩], by simp, by simp⟩

def channelOpenFailureMsg : StructType :=
  ⟨"channelOpenFailureMsg", [92], [⟨"PeersId", .uint32⟩, ⟨"Reason", .uint32⟩, ⟨"Message", .string⟩,
    ⟨"Language", .string⟩], by simp, by simp⟩

def windowAdjustMsg : StructType :=
  ⟨"windowAdjustMsg", [93], [⟨"PeersId", .uint32⟩, ⟨"AdditionalBytes", .uint32⟩], by simp, by simp⟩

def channelDataMsg : StructType :=
  ⟨"channelDataMsg", [94], [⟨"PeersId", .uint32⟩, ⟨"Length", .uint32⟩, ⟨"Rest", .rest⟩], by simp,
    by simp⟩

def channelEOFMsg : StructType := ⟨"channelEOFMsg", [96], [⟨"PeersId", .uint32⟩], by simp, by simp⟩

def channelCloseMsg : StructType :=
  ⟨"channelCloseMsg", [97], [⟨"PeersId", .uint32⟩], by simp, by simp⟩

def channelRequestMsg : StructType :=
  ⟨"channelRequestMsg", [98], [⟨"PeersId", .uint32⟩, ⟨"Request", .string⟩, ⟨"WantReply", .bool⟩,
    ⟨"RequestSpecificData", .rest⟩], by simp, by simp⟩

def channelRequestSuccessMsg : StructType :=
  ⟨"channelRequestSuccessMsg", [99], [⟨"PeersId", .uint32⟩], by simp, by simp⟩

def channelRequestFailureMsg : StructType :=
  ⟨"channelRequestFailureMsg", [100], [⟨"PeersId", .uint32⟩], by simp, by simp⟩

/-- What `decode` returns, as far as the mux and its channels look at it; `other` is a message that
they tell from these by its type alone. -/
inductive Decoded where
  | globalRequest (r : GlobalRequestMsg)
  | globalResponse (r : GlobalResponse)
  | openFailure (f : OpenFailure)
  | openConfirm (myId myWindow maxPacketSize : Nat)
  | windowAdjust (additionalBytes : Nat)
  | request (name : String) (wantReply : Bool) (payload : Bytes)
  | success
  | failure
  | other (tag : UInt8)
  deriving DecidableEq, Repr

def unmarshalAs (t : StructType) (packet : Bytes) (f : Vals t.fields → Decoded) :
    Result Err Decoded := do
  let m ← Checked.unmarshal t packet
  pure (f m)

def decode (packet : Bytes) : Result Err Decoded := do
  let tag ← byteAt packet 0
  match tag with
  | 1 => unmarshalAs disconnectMsg packet fun _ => .other tag
  | 5 => unmarshalAs serviceRequestMsg packet fun _ => .other tag
  | 6 => unmarshalAs serviceAcceptMsg packet fun _ => .other tag
  | 20 => unmarshalAs kexInitMsg packet fun _ => .other tag
  | 30 => unmarshalAs kexDHInitMsg packet fun _ => .other tag
  | 31 => unmarshalAs kexDHReplyMsg packet fun _ => .other tag
  | 50 => unmarshalAs userAuthRequestMsg packet fun _ => .other tag
  -- a struct without fields, which `typeTags` could not take
  | 52 => pure (.other tag)
  | 51 => unmarshalAs userAuthFailureMsg packet fun _ => .other tag
  | 60 => unmarshalAs userAuthPubKeyOkMsg packet fun _ => .other tag
  | 80 => unmarshalAs globalRequestMsg packet fun (name, wantReply, payload, _) =>
      .globalRequest ⟨showBytes name, wantReply, payload⟩
  | 81 => unmarshalAs globalRequestSuccessMsg packet fun (data, _) => .globalResponse ⟨true, data⟩
  | 82 => unmarshalAs globalRequestFailureMsg packet fun (data, _) => .globalResponse ⟨false, data⟩
  | 90 => unmarshalAs channelOpenMsg packet fun _ => .other tag
  | 94 => unmarshalAs channelDataMsg packet fun _ => .other tag
  | 91 => unmarshalAs channelOpenConfirmMsg packet fun (_, myId, myWindow, maxPacketSize, _) =>
      .openConfirm (toNat myId) (toNat myWindow) (toNat maxPacketSize)
  | 92 => unmarshalAs channelOpenFailureMsg packet fun (_, reason, message, language, _) =>
      .openFailure ⟨toNat reason, showBytes message, showBytes language⟩
  | 93 => unmarshalAs windowAdjustMsg packet fun (_, additionalBytes, _) =>
      .windowAdjust (toNat additionalBytes)
  | 96 => unmarshalAs channelEOFMsg packet fun _ => .other tag
  | 97 => unmarshalAs channelCloseMsg packet fun _ => .other tag
  | 98 => unmarshalAs channelRequestMsg packet fun (_, name, wantReply, payload, _) =>
      .request (showBytes name) wantReply payload
  | 99 => unmarshalAs channelRequestSuccessMsg packet fun _ => .success
  | 100 => unmarshalAs channelRequestFailureMsg packet fun _ => .failure
  | _ => .error (unexpectedMessageError 0 tag)

def handleData (packet : Bytes) : Result Err ChanMsg := do
  let tag ← byteAt packet 0
  let isExtendedData := tag == msgChannelExtendedData
  let headerLen := if isExtendedData then 13 else 9
  if packet.length < headerLen then .error (parseError tag)
  else do
    let extended ← if isExtendedData then do pure (some (← uint32Of (← bytesFrom packet 5)))
      else pure none
    let length ← uint32Of (← bytesFrom (← bytesTo packet headerLen) (headerLen - 4))
    let data ← bytesFrom packet headerLen
    pure (.data extended length data)

def handlePacket (packet : Bytes) : Result Err ChanMsg := do
  let tag ← byteAt packet 0
  if tag = msgChannelData ∨ tag = msgChannelExtendedData then handleData packet
  else if tag = 97 then pure .close
  else if tag = 96 then pure .eof
  else do
    match ← decode packet with
    | .openFailure f => pure (.openFailure f)
    | .openConfirm myId myWindow maxPacketSize => pure (.openConfirm myId myWindow maxPacketSize)
    | .windowAdjust n => pure (.windowAdjust n)
    | .request name wantReply payload => pure (.request name wantReply payload)
    | .success => pure .success
    | .failure => pure .failure
    | .globalRequest _ | .globalResponse _ => pure (.other tag)
    | .other tag => pure (.other tag)

def outOfRange : String := "index or slice bounds out of range"

def inRange : Result Empty α → Except String α
  | .ok a => .ok a
  | .panic => .error outOfRange

def orCrash : Result Err α → Except String (Except Err α)
  | .ok a => .ok (.ok a)
  | .error e => .ok (.error e)
  | .panic => .error outOfRange

def handleGlobalPacket (packet : Bytes) : Except String MuxMsg := do
  match ← orCrash (decode packet) with
  | .error e => pure (.global (.error e))
  | .ok (.globalRequest r) => pure (.global (.ok (.request r)))
  | .ok (.globalResponse r) => pure (.global (.ok (.response r)))
  | .ok _ => .error "not a global message"

def handleChannelOpen (packet : Bytes) : Except String MuxMsg := do
  match ← orCrash (Checked.unmarshal channelOpenMsg packet) with
  | .error e => pure (.channelOpen (.error e))
  | .ok (_, peersId, peersWindow, maxPacketSize, _) =>
    pure (.channelOpen (.ok ⟨toNat peersId, toNat peersWindow,
      toNat maxPacketSize⟩))

/-- How `onePacket` tells packets apart; the packet of a channel is read even when no channel has
its id. -/
def MuxMsg.ofPacket (packet : Bytes) : Except String MuxMsg := do
  let tag ← inRange (byteAt packet 0)
  if tag = 90 then handleChannelOpen packet
  else if tag = 80 ∨ tag = 81 ∨ tag = 82 then handleGlobalPacket packet
  else if packet.length < 5 then pure (.short tag)
  else do
    let id ← inRange (do uint32Of (← bytesFrom packet 1))
    match ← orCrash (handlePacket packet) with
    | .error e => pure (.chan id (.malformed e))
    | .ok msg => pure (.chan id msg)

theorem unmarshalAs_eq (t : StructType) (packet : Bytes) (f : Vals t.fields → Decoded) :
    unmarshalAs t packet f = .ofExcept ((unmarshal t packet).map f) := by
  rw [unmarshalAs, Checked.unmarshal_eq]
  cases unmarshal t packet <;> rfl

theorem unmarshalAs_ne_panic (t : StructType) (packet : Bytes) (f : Vals t.fields → Decoded) :
    unmarshalAs t packet f ≠ .panic := by
  rw [unmarshalAs_eq]
  cases (unmarshal t packet).map f <;> exact nofun

theorem of_unmarshalAs {f : Vals t.fields → Decoded} (h : unmarshalAs t packet f = .ok d) :
    ∃ m, d = f m := by
  rw [unmarshalAs_eq] at h
  cases hm : unmarshal t packet with
  | error e =>
    rw [hm] at h
    cases h
  | ok m =>
    rw [hm] at h
    cases h
    exact ⟨m, rfl⟩

theorem decode_ne_panic (tag : UInt8) (body : Bytes) : decode (tag :: body) ≠ .panic := by
  simp only [decode, byteAt_cons_zero, ok_bind]
  split <;> first | exact unmarshalAs_ne_panic _ _ _ | exact nofun

theorem readData_ne_panic {packet : Bytes} (h : headerLen ≤ packet.length) (h4 : 4 ≤ headerLen)
    (extended : Option Nat) : (do
      let length ← uint32Of (← bytesFrom (← bytesTo packet headerLen) (headerLen - 4))
      let data ← bytesFrom packet headerLen
      pure (.data extended length data) : Result Err ChanMsg) ≠ .panic := by
  have hto : (packet.take headerLen).length = headerLen := length_take_of_le h
  have hfrom : ((packet.take headerLen).drop (headerLen - 4)).length = 4 := by
    rw [length_drop, hto]
    omega
  rw [bytesTo_of_le h, ok_bind, bytesFrom_of_le (by rw [hto]; exact Nat.sub_le _ _),
    ok_bind, uint32Of_of_le (le_of_eq hfrom.symm), ok_bind, bytesFrom_of_le h]
  exact nofun

theorem handleData_ne_panic (tag : UInt8) (body : Bytes) : handleData (tag :: body) ≠ .panic := by
  simp only [handleData, byteAt_cons_zero, ok_bind]
  cases tag == msgChannelExtendedData with
  | true =>
    simp only [if_true]
    split
    · exact nofun
    rename_i hl
    have hl : 13 ≤ (tag :: body).length := Nat.le_of_not_lt hl
    have h5 : 4 ≤ ((tag :: body).drop 5).length := by
      rw [length_drop]
      omega
    rw [bytesFrom_of_le (Nat.le_trans (by decide) hl), ok_bind, uint32Of_of_le h5]
    exact readData_ne_panic hl (by decide) _
  | false =>
    simp only [Bool.false_eq_true, if_false]
    split
    · exact nofun
    rename_i hl
    exact readData_ne_panic (Nat.le_of_not_lt hl) (by decide) _

theorem handlePacket_ne_panic (tag : UInt8) (body : Bytes) :
    handlePacket (tag :: body) ≠ .panic := by
  simp only [handlePacket, byteAt_cons_zero, ok_bind]
  split
  · exact handleData_ne_panic tag body
  split
  · exact nofun
  split
  · exact nofun
  cases hd : decode (tag :: body) with
  | ok d => cases d <;> exact nofun
  | error e => exact nofun
  | panic => exact absurd hd (decode_ne_panic tag body)

theorem exists_of_ne_panic {r : Result Err α} (h : r ≠ .panic) : ∃ x, orCrash r = .ok x := by
  cases r with
  | ok a | error e => exact ⟨_, rfl⟩
  | panic => exact absurd rfl h

theorem exists_handleGlobalPacket (h : tag = 80 ∨ tag = 81 ∨ tag = 82) (body : Bytes) :
    ∃ p, handleGlobalPacket (tag :: body) = .ok p := by
  have hglobal : ∀ d, decode (tag :: body) = .ok d →
      (∃ r, d = .globalRequest r) ∨ ∃ r, d = .globalResponse r := by
    intro d hd
    rcases h with rfl | rfl | rfl <;> simp only [decode, byteAt_cons_zero, ok_bind] at hd <;>
      obtain ⟨m, rfl⟩ := of_unmarshalAs hd
    · exact .inl ⟨_, rfl⟩
    · exact .inr ⟨_, rfl⟩
    · exact .inr ⟨_, rfl⟩
  cases hd : decode (tag :: body) with
  | ok d =>
    obtain ⟨r, rfl⟩ | ⟨r, rfl⟩ := hglobal d hd
    iterate 2
      · exact ⟨_, by rw [handleGlobalPacket, hd]; rfl⟩
  | error e => exact ⟨_, by rw [handleGlobalPacket, hd]; rfl⟩
  | panic => exact absurd hd (decode_ne_panic tag body)

theorem MuxMsg.exists_ofPacket {packet : Bytes} (h : packet ≠ []) :
    ∃ p, MuxMsg.ofPacket packet = .ok p := by
  cases packet with
  | nil => exact absurd rfl h
  | cons tag body =>
    have hopen : ∃ p, handleChannelOpen (tag :: body) = .ok p := by
      rw [handleChannelOpen, Checked.unmarshal_eq]
      cases unmarshal channelOpenMsg (tag :: body) <;> exact ⟨_, rfl⟩
    simp only [ofPacket, byteAt_cons_zero, inRange]
    change ∃ p, (if tag = 90 then _ else _) = Except.ok p
    split
    · exact hopen
    split
    · rename_i hg
      exact exists_handleGlobalPacket hg body
    split
    · exact ⟨_, rfl⟩
    rename_i hl
    have hl : 5 ≤ (tag :: body).length := Nat.le_of_not_lt hl
    have hfrom : 4 ≤ ((tag :: body).drop 1).length := by
      rw [length_drop]
      omega
    rw [bytesFrom_of_le (Nat.le_trans (by decide) hl), ok_bind, uint32Of_of_le hfrom]
    obtain ⟨x, hx⟩ := exists_of_ne_panic (handlePacket_ne_panic tag body)
    cases x with
    | error e | ok msg => exact ⟨_, by rw [hx]; rfl⟩

/-- The struct that a channel gives to `sendMessage`, but for the recipient's id. The other packets
are not sent that way. -/
def ChanMsg.struct : ChanMsg → Option (Σ t : StructType, Vals t.fields)
  | .windowAdjust n => some ⟨windowAdjustMsg, (0 : UInt32), ofNat n, ()⟩
  | .eof => some ⟨channelEOFMsg, (0 : UInt32), ()⟩
  | .close => some ⟨channelCloseMsg, (0 : UInt32), ()⟩
  | .openConfirm myId myWindow maxPacketSize => some ⟨channelOpenConfirmMsg, (0 : UInt32),
      ofNat myId, ofNat myWindow, ofNat maxPacketSize, ([] : Bytes), ()⟩
  | .openFailure f => some ⟨channelOpenFailureMsg, (0 : UInt32), ofNat f.reason,
      ascii f.message, ascii f.language, ()⟩
  | .request name wantReply payload =>
    some ⟨channelRequestMsg, (0 : UInt32), ascii name, wantReply, payload, ()⟩
  | .success => some ⟨channelRequestSuccessMsg, (0 : UInt32), ()⟩
  | .failure => some ⟨channelRequestFailureMsg, (0 : UInt32), ()⟩
  | .data .. | .malformed _ | .other _ => none

def Channel.sendMessage (c : Channel) (t : StructType) (m : Vals t.fields) : Result Err Bytes := do
  let p ← .ofOption (marshal t m)
  putUint32At p 1 c.remoteId

namespace Channel

def packetBuffer (pool : Slice) (want : Nat) : Result Err Bytes :=
  if u32 pool.cap < want then pure (replicate want 0)
  else do pure (← .ofOption (pool.upTo want)).data

def fillPacket (c : Channel) (pool : Slice) (code space : Nat) (data : Bytes) :
    Result Err Bytes := do
  let packet ← packetBuffer pool (u32 (headerLength code + space))
  let todo ← bytesTo data space
  let packet ← setByte packet 0 (if code > 0 then msgChannelExtendedData else msgChannelData)
  let packet ← putUint32At packet 1 c.remoteId
  let packet ← if code > 0 then putUint32At packet 5 code else pure packet
  let packet ← putUint32At packet (headerLength code - 4) (u32 todo.length)
  copyAt packet (headerLength code) todo

theorem exists_packetBuffer (pool : Slice) (want : Nat) :
    ∃ b, packetBuffer pool want = .ok b ∧ b.length = want := by
  unfold packetBuffer
  split
  · exact ⟨_, rfl, length_replicate⟩
  rename_i hcap
  -- a capacity of 2^32 or more is cut to less
  have hle : want ≤ pool.cap := (Nat.le_of_not_lt hcap).trans (Nat.mod_le _ _)
  rw [Slice.upTo_of_le hle]
  exact ⟨_, rfl, Slice.length_data _⟩

theorem exists_split {l : List α} (h : n ≤ l.length) :
    ∃ a b, l = a ++ b ∧ a.length = n ∧ b.length = l.length - n :=
  ⟨l.take n, l.drop n, (take_append_drop n l).symm, length_take_of_le h,
    length_drop⟩

theorem putData_eq {x y b data : Bytes} (hx : x.length + 4 = n) (hy : y.length = 4)
    (hb : b.length = data.length) :
    (do copyAt (← putUint32At (x ++ (y ++ b)) (n - 4) (u32 data.length)) n data :
      Result Err Bytes) =
      .ok (x ++ putUint32 (u32 data.length) ++ data) := by
  rw [putUint32At_append (Nat.eq_sub_of_add_eq hx) hy, ok_bind, ← append_assoc]
  exact copyAt_append (length_append.trans hx) hb

theorem fillPacket_eq (c : Channel) (pool : Slice) (code : Nat) {data : Bytes}
    (hs : space ≤ data.length) (hw : headerLength code + space < 2 ^ 32) :
    c.fillPacket pool code space data = .ok (c.dataPacket code (data.take space)) := by
  have htodo : (data.take space).length = space := length_take_of_le hs
  obtain ⟨b, hb, hlen⟩ := exists_packetBuffer pool (u32 (headerLength code + space))
  rw [u32_of_lt hw] at hlen
  rw [fillPacket, hb, ok_bind, bytesTo_of_le hs, ok_bind]
  -- the header is cut into its fields, which are overwritten one after the other
  have hge : 9 ≤ headerLength code := by
    unfold headerLength
    split <;> decide
  obtain ⟨x, b₁, rfl⟩ := exists_cons_of_length_pos (l := b) (by omega)
  rw [length_cons] at hlen
  obtain ⟨y₁, b₂, rfl, hy₁, hb₂⟩ := exists_split (l := b₁) (n := 4) (by omega)
  obtain ⟨y₂, b₃, rfl, hy₂, hb₃⟩ := exists_split (l := b₂) (n := 4) (by omega)
  have hid : ∀ op z, (putUint32At (op :: (y₁ ++ z)) 1 c.remoteId : Result Err Bytes) =
      .ok (op :: putUint32 c.remoteId ++ z) :=
    fun op z => putUint32At_append (x := [op]) rfl hy₁
  by_cases hc : code > 0
  · have hh : headerLength code = 13 := if_pos hc
    obtain ⟨y₃, b₄, rfl, hy₃, hb₄⟩ := exists_split (l := b₃) (n := 4) (by omega)
    simp only [hc, if_true, setByte_cons_zero, ok_bind, hid, hh]
    rw [putUint32At_append (x := _ :: putUint32 c.remoteId) (i := 5) rfl hy₂, ok_bind,
      ← append_assoc,
      dataPacket, if_pos hc]
    exact putData_eq rfl hy₃ (by simp at hlen hb₂ hb₃ hb₄ ⊢; omega)
  · have hh : headerLength code = 9 := if_neg hc
    simp only [hc, if_false, setByte_cons_zero, ok_bind, hid, hh]
    rw [dataPacket, if_neg hc]
    exact putData_eq rfl hy₂ (by simp at hlen hb₂ hb₃ ⊢; omega)

theorem sendMessage_ne_panic (c : Channel) {msg : ChanMsg} (h : msg.struct = some ⟨t, m⟩) :
    c.sendMessage t m ≠ .panic := by
  have hlen : 5 ≤ (t.encode m).length := by
    cases msg <;> simp only [ChanMsg.struct, Option.some.injEq, reduceCtorEq] at h <;> cases h <;>
      simp [StructType.encode, encodeFields, Kind.encode, windowAdjustMsg, channelEOFMsg,
        channelCloseMsg, channelOpenConfirmMsg, channelOpenFailureMsg, channelRequestMsg,
        channelRequestSuccessMsg, channelRequestFailureMsg]
  rw [sendMessage, StructType.marshal_eq]
  change putUint32At (t.encode m) 1 c.remoteId ≠ .panic
  rw [putUint32At, if_pos hlen]
  simp

end Channel

def panicOf : Result ε α → Option String
  | .panic => some outOfRange
  | _ => none

def Queue.sendPanics (q : Queue α) : Option String :=
  if q.closed then some "send on closed channel" else none

def Queue.closePanics (q : Queue α) : Option String :=
  if q.closed then some "close of closed channel" else none

def ChanList.indexPanics (c : ChanList) (id : Nat) : Option String :=
  if id < u32 c.chans.length ∧ ¬ id < c.chans.length then some outOfRange else none

/-- What the state of the mux leaves open: the buffer that `packetPool` holds, and the arguments of
`OpenChannel`. -/
structure Untracked where
  packetPool : Slice
  chanType : Bytes
  extra : Bytes
  deriving DecidableEq

namespace Mux

/-- The packets come from the wire; the other steps are those of `pass`. -/
inductive WireAct (ι : Type) where
  | packet (p : Bytes)
  | pass (a : PassAct ι) (u : Untracked)

variable {ι : Type} [Fintype ι] [DecidableEq ι]

/-- The Go channels of the mux and the indices into its list, in a step of the packet loop. The
channels have their own in `perform`. -/
def loopPanics (m : Mux ι) (choice : LoopChoice) : Option String :=
  match m.pc with
  | .offer _ => if choice = .comm then m.incomingChannels.sendPanics else none
  | .request _ => if choice = .comm then m.incomingRequests.sendPanics else none
  | .response _ => if choice = .comm then m.globalResponses.sendPanics else none
  | .handle k => m.chans[k]?.bind fun e =>
    if e.loop.head? = some .remove then m.chanList.indexPanics e.ch.localId else none
  | .drop _ [] =>
    m.incomingChannels.closePanics <|> m.incomingRequests.closePanics <|>
      m.globalResponses.closePanics
  | _ => none

def writePanics (m : Mux ι) (k : Nat) (i : ι) (u : Untracked) : Option String :=
  m.chans[k]?.bind fun e => match e.gos i with
  | .reserve code _ data =>
    match e.ch.remoteWin.reserve e.ch.idleStop (minUint32 e.ch.maxRemotePayload data.length) with
    | some (space, none, _) => panicOf (e.ch.fillPacket u.packetPool code space data)
    | _ => none
  | _ => none

def sends (m : Mux ι) : PassAct ι → Option MuxSent
  | .act a => (m.step a).bind Prod.snd
  | .overlap .. => none
  | .failWrite k i _ =>
    (m.chans[k]?.bind fun e => e.ch.run .comm (e.gos i)).bind fun r => outOf k r.effect
  | .failAccept k => (m.chans[k]?.bind accept).bind fun r => r.2.map (.chan k)

def sendPanics (m : Mux ι) (u : Untracked) : MuxSent → Option String
  | .chan k msg => m.chans[k]?.bind fun e => match msg.struct with
    | some ⟨t, v⟩ => panicOf (e.ch.sendMessage t v)
    | none => none
  | .channelOpen _ msg => panicOf (ε := Err) (.ofOption (marshal channelOpenMsg
      (u.chanType, ofNat msg.peersId, ofNat msg.peersWindow,
        ofNat msg.maxPacketSize, u.extra, ())))
  | .openFailure peersId f => panicOf (ε := Err) (.ofOption (marshal channelOpenFailureMsg
      (ofNat peersId, ofNat f.reason, ascii f.message, ascii f.language, ())))

def stepPanics (m : Mux ι) (u : Untracked) : PassAct ι → Option String
  | .act (.loop choice) => m.loopPanics choice
  | .act (.chan k (.run i _)) => m.writePanics k i u
  | _ => none

def crash (m : Mux ι) (a : PassAct ι) (u : Untracked) : Option String :=
  m.stepPanics u a <|> (m.sends a).bind (m.sendPanics u)

/-- The step of a mux that reads packets from the wire; a panic ends the program. -/
def onWire (m : Mux ι) : WireAct ι → Option (Mux ι)
  | .packet p =>
    if m.pc = .top then
      match MuxMsg.ofPacket p with
      | .error text => some (m.goto (.panicked text))
      | .ok (.chan id msg) => match m.chanList.indexPanics id with
        | some text => some (m.goto (.panicked text))
        | none => some (m.onePacket (.chan id msg))
      | .ok msg => some (m.onePacket msg)
    else none
  | .pass (.act (.packet _)) _ => none
  | .pass a u => match m.crash a u with
    | some text => some (m.goto (.panicked text))
    | none => m.pass a

end Mux

theorem panicOf_of_ne {r : Result ε α} (h : r ≠ .panic) : panicOf r = none := by
  cases r with
  | ok a => rfl
  | error e => rfl
  | panic => exact absurd rfl h

theorem marshal_ne_panic (t : StructType) (m : Vals t.fields) :
    (.ofOption (marshal t m) : Result Err Bytes) ≠ .panic := by
  rw [StructType.marshal_eq]
  exact nofun

theorem Queue.sendPanics_of_open {q : Queue α} (h : q.closed = false) : q.sendPanics = none := by
  rw [sendPanics, h]
  rfl

theorem Queue.closePanics_of_open {q : Queue α} (h : q.closed = false) : q.closePanics = none := by
  rw [closePanics, h]
  rfl

theorem ChanList.indexPanics_eq (c : ChanList) (id : Nat) : c.indexPanics id = none :=
  if_neg fun h => h.2 (Nat.lt_of_lt_of_le h.1 (Nat.mod_le _ _))

def MuxPc.torn : MuxPc → Bool
  | .closeConn _ | .setErr _ | .done | .panicked _ => true
  | _ => false

namespace Mux

variable {ι : Type} {m m' : Mux ι}

structure Open (m : Mux ι) : Prop where
  incomingChannels : m.incomingChannels.closed = false
  incomingRequests : m.incomingRequests.closed = false
  globalResponses : m.globalResponses.closed = false

structure Safe (m : Mux ι) : Prop where
  sound : m.Sound
  alive : ∀ text, m.pc ≠ .panicked text
  queues : m.pc.torn = false → m.Open
  sizes : ∀ e ∈ m.chans, e.ch.maxRemotePayload ≤ 2 ^ 31

theorem Safe.loopPanics (h : m.Safe) (choice : LoopChoice) : m.loopPanics choice = none := by
  have hopen : ∀ pc, m.pc = pc → pc.torn = false → m.Open := by
    rintro pc rfl ht
    exact h.queues ht
  unfold Mux.loopPanics
  split
  · rename_i hp
    rw [Queue.sendPanics_of_open (hopen _ hp rfl).incomingChannels, ite_self]
  · rename_i hp
    rw [Queue.sendPanics_of_open (hopen _ hp rfl).incomingRequests, ite_self]
  · rename_i hp
    rw [Queue.sendPanics_of_open (hopen _ hp rfl).globalResponses, ite_self]
  · rename_i k hp
    cases m.chans[k]? with
    | none => rfl
    | some e => rw [Option.bind_some, ChanList.indexPanics_eq, ite_self]
  · rename_i hp
    have ho := hopen _ hp rfl
    rw [Queue.closePanics_of_open ho.incomingChannels,
      Queue.closePanics_of_open ho.incomingRequests, Queue.closePanics_of_open ho.globalResponses]
    rfl
  · rfl

theorem Safe.writePanics (h : m.Safe) (k : Nat) (i : ι) (u : Untracked) :
    m.writePanics k i u = none := by
  unfold Mux.writePanics
  cases hk : m.chans[k]? with
  | none => rfl
  | some e =>
    rw [Option.bind_some]
    split
    · rename_i code n data hpc
      split
      · rename_i space w hres
        have hsize := h.sizes e (mem_of_getElem? hk)
        obtain ⟨-, -, hspace⟩ : e.ch.idleStop = false ∧ e.ch.remoteWin.closed = false ∧
            space ≤ minUint32 e.ch.maxRemotePayload data.length := by
          cases Window.reserve_cases hres with
          | taken hs hc hw hk => exact ⟨hs, hc, hk⟩
        have hdata := hspace.trans (minUint32_le_right _ _)
        have hremote := hspace.trans (minUint32_le_left _ _)
        have hheader : headerLength code ≤ 13 := by
          unfold headerLength
          split <;> decide
        rw [fillPacket_eq e.ch u.packetPool code hdata (by omega)]
        rfl
      · rfl
    · rfl

theorem sendPanics_eq (m : Mux ι) (u : Untracked) (s : MuxSent) : m.sendPanics u s = none := by
  cases s with
  | chan k msg =>
    rw [sendPanics]
    cases m.chans[k]? with
    | none => rfl
    | some e =>
      rw [Option.bind_some]
      split
      · rename_i t v hs
        exact panicOf_of_ne (e.ch.sendMessage_ne_panic hs)
      · rfl
  | channelOpen k msg | openFailure peersId f =>
    rw [sendPanics]
    exact panicOf_of_ne (marshal_ne_panic _ _)

theorem Open.absorb (h : m.Open) (eff : Option Effect) : (m.absorb eff).Open := by
  unfold Mux.absorb
  split <;> exact ⟨h.1, h.2, h.3⟩

theorem Safe.setChan (h : m.Safe) {e' : Endpoint ι} (he : m.chans[k]? = some e)
    (hf : e.Aside e')
    (hs : ∀ x ∈ (m.setChan k e').chans, x.ch.maxRemotePayload ≤ 2 ^ 31) :
    (m.setChan k e').Safe := by
  refine ⟨h.sound.setChan he ((h.sound.chan k e he).frame hf) (hf.1 ▸ id), h.alive, ?_, hs⟩
  intro ht
  have ho := h.queues ht
  exact ⟨ho.1, ho.2, ho.3⟩

theorem safe_newMux : (newMux : Mux ι).Safe :=
  ⟨sound_newMux, fun text ht => by (cases ht), fun _ => ⟨rfl, rfl, rfl⟩, fun e he => by (cases he)⟩

variable [Fintype ι] [DecidableEq ι]

theorem crash_of (h : m.stepPanics u a = none) : m.crash a u = none := by
  have hsend : (m.sends a).bind (m.sendPanics u) = none := by
    cases m.sends a with
    | none => rfl
    | some s => exact m.sendPanics_eq u s
  rw [crash, h, hsend]
  rfl

theorem Safe.crash (h : m.Safe) (a : PassAct ι) (u : Untracked) : m.crash a u = none := by
  apply crash_of
  unfold stepPanics
  split
  · exact h.loopPanics _
  · exact h.writePanics _ _ u
  · rfl

theorem LoopStep.isOpen (h : m.LoopStep choice m' out) (ho : m.pc.torn = false → m.Open)
    (ht : m'.pc.torn = false) : m'.Open := by
  have hopen : ∀ pc, m.pc = pc → pc.torn = false → m.Open := by
    rintro pc rfl ht
    exact ho ht
  cases h with
  | stopped hp hs =>
    have ho := ho (by cases hpc : m.pc <;> rw [hpc] at hp <;> first | rfl | cases hp)
    exact ⟨ho.1, ho.2, ho.3⟩
  | @run k e choice c e' eff hp he hc hs =>
    have ho := ho (by cases hpc : m.pc <;> rw [hpc] at hp <;> first | rfl | cases hp)
    exact Open.absorb (m := m.setChan k e') ⟨ho.1, ho.2, ho.3⟩ eff
  | closeQueues hp => cases ht
  | closeConn hp => cases ht
  | setErr hp => cases ht
  | refuse hp | offer hp | request hp | response hp | handled hp | closed hp | again hp | leave hp
    | drop hp =>
    have ho := hopen _ hp rfl
    exact ⟨ho.1, ho.2, ho.3⟩

theorem Steps.isOpen (h : m.Steps a m' out) (ho : m.pc.torn = false → m.Open)
    (ht : m'.pc.torn = false) : m'.Open := by
  cases h with
  | packet hp hr =>
    have ho := ho (by rw [hp]; rfl)
    cases hr <;> exact ⟨ho.1, ho.2, ho.3⟩
  | readError hp =>
    have ho := ho (by rw [hp]; rfl)
    exact ⟨ho.1, ho.2, ho.3⟩
  | loop hs => exact hs.isOpen ho ht
  | opened hk he hs =>
    rw [absorb_user hs rfl] at ht ⊢
    have ho := ho ht
    exact ⟨ho.1, ho.2, ho.3⟩
  | chan ha hn he hs =>
    rw [absorb_user hs ha] at ht ⊢
    have ho := ho ht
    exact ⟨ho.1, ho.2, ho.3⟩
  | _ =>
    have ho := ho ht
    exact ⟨ho.1, ho.2, ho.3⟩

theorem sizes_pass (h : ∀ e ∈ m.chans, e.ch.maxRemotePayload ≤ 2 ^ 31) (hs : m.pass a = some m') :
    ∀ e ∈ m'.chans, e.ch.maxRemotePayload ≤ 2 ^ 31 := by
  refine all_chans_pass h hs ?_ ?_ ?_ ?_ ?_ ?_ ?_ ?_
  · exact fun ch _ hch => hch
  · exact fun msg e he => he
  · exact fun e he => he
  · exact fun e e' msg hd he => by cases hd <;> exact he
  · intro e b e' eff _ hs he
    cases hs with
    | run hr => exact hr.payload.1.trans_le he
    | loop hl hp => exact hp.maxRemotePayload_le he fun _ _ _ _ _ hu => hu
    | _ => exact he
  · intro e i c e' ho he
    obtain ⟨-, rfl⟩ := of_guard ho
    exact he
  · intro e k i err e' _ _ hf he
    obtain ⟨r, msg, locked, hr, hm, rfl⟩ := failWrite_cases hf
    exact hr.payload.1.trans_le he
  · intro e e' ha he
    obtain ⟨e₁, msg, hd, rfl⟩ := failAccept_cases ha
    cases hd <;> exact he

theorem Safe.pass (h : m.Safe) (hlen : m.chanList.chans.length < 2 ^ 32) (hs : m.pass a = some m') :
    m'.Safe := by
  have hsizes := sizes_pass h.sizes hs
  cases a with
  | act a =>
    obtain ⟨⟨m'', out⟩, hstep, rfl⟩ := Option.map_eq_some_iff.mp hs
    have hsteps := step_cases hstep
    exact ⟨h.sound.step hlen hsteps, h.sound.not_panicked hlen hsteps h.alive,
      hsteps.isOpen h.queues, hsizes⟩
  | overlap k i c =>
    obtain ⟨e', he', rfl⟩ := Option.map_eq_some_iff.mp hs
    obtain ⟨e, he, ho⟩ := Option.bind_eq_some_iff.mp he'
    obtain ⟨-, rfl⟩ := of_guard ho
    exact h.setChan he ⟨rfl, .refl _, rfl, rfl, rfl, prefix_append _ _⟩ hsizes
  | failWrite k i err =>
    obtain ⟨e', he', rfl⟩ := Option.map_eq_some_iff.mp hs
    obtain ⟨e, he, hf⟩ := Option.bind_eq_some_iff.mp he'
    obtain ⟨r, msg, locked, hr, hm, rfl⟩ := failWrite_cases hf
    have hk := hr.keeps
    obtain ⟨hi, -, -, hmsg, hq⟩ := hr.frame
    refine h.setChan he ⟨rfl, ?_, hi, hmsg, congrArg Queue.closed hq, prefix_append _ _⟩ hsizes
    exact ⟨hk.1, hk.2, hk.3, hk.4, hk.5, hk.6, hk.7, hk.8⟩
  | failAccept k =>
    obtain ⟨-, hs⟩ := Option.ite_none_right_eq_some.mp hs
    obtain ⟨e', he', rfl⟩ := Option.map_eq_some_iff.mp hs
    obtain ⟨e, he, ha⟩ := Option.bind_eq_some_iff.mp he'
    obtain ⟨e₁, msg, hd, rfl⟩ := failAccept_cases ha
    have hf := hd.frame
    exact h.setChan he ⟨hf.1, hf.2, hf.3, hf.4, hf.5, hf.6⟩ hsizes

/-- Every packet has a byte, and the list of channels has fewer slots than there are ids. -/
def Sensible (m : Mux ι) (a : WireAct ι) : Prop :=
  a ≠ .packet [] ∧ m.chanList.chans.length < 2 ^ 32

theorem Safe.onWire (h : m.Safe) (hg : m.Sensible a) (hs : m.onWire a = some m') : m'.Safe := by
  obtain ⟨hne, hlen⟩ := hg
  cases a with
  | packet p =>
    obtain ⟨hp, hs⟩ := Option.ite_none_right_eq_some.mp hs
    have hne : p ≠ [] := fun hp => hne (hp ▸ rfl)
    obtain ⟨msg, hmsg⟩ := MuxMsg.exists_ofPacket hne
    have hm' : m' = m.onePacket msg := by
      rw [hmsg] at hs
      cases msg with
      | chan id msg =>
        simp only [ChanList.indexPanics_eq, Option.some.injEq] at hs
        exact hs.symm
      | _ => exact (Option.some.inj hs).symm
    have hpass : m.pass (.act (.packet msg)) = some m' := by
      rw [hm', Mux.pass, next, step, if_pos hp]
      rfl
    exact h.pass hlen hpass
  | pass a u =>
    have hpass : m.pass a = some m' := by
      unfold Mux.onWire at hs
      split at hs
      · rename_i heq
        cases heq
      · cases hs
      rename_i a' u' hn heq
      cases heq
      rw [h.crash] at hs
      exact hs
    exact h.pass hlen hpass

/-- Nothing that the peer sends makes the mux panic. -/
theorem never_panicked (hg : Along onWire Sensible (newMux : Mux ι) as)
    (h : exec onWire newMux as = some m) (text : String) : m.pc ≠ .panicked text :=
  (run_invariant (fun _ _ _ hi hg hs => Safe.onWire hi hg hs) safe_newMux hg h).alive text

/-- Whatever the peer sends, a listed channel has the id of its one slot and is not closed. -/
theorem slot_own (hg : Along onWire Sensible (newMux : Mux ι) as)
    (h : exec onWire newMux as = some m) (hi : m.chanList.slot i = some k) :
    ∃ e, m.chans[k]? = some e ∧ e.ch.localId = i ∧ e.Open ∧
      ∀ j, m.chanList.slot j = some k → j = i := by
  have hs := run_invariant (fun _ _ _ hi hg hs => Safe.onWire hi hg hs) safe_newMux hg h
  obtain ⟨e, he⟩ := hs.sound.exists_of_slot hi
  obtain ⟨hid, ho, -⟩ := (hs.sound.chan k e he).listed i hi
  exact ⟨e, he, hid, ho, fun j hj => hs.sound.slot_inj hj hi⟩

def nothing : Untracked := ⟨Slice.make 0, [], []⟩

def heard (p : Bytes) (n : Nat) : List (WireAct Unit) :=
  .packet p :: replicate n (.pass (.act (.loop .comm)) nothing)

def openPacket : Bytes :=
  [90, 0, 0, 0, 0] ++ [0, 0, 0, 7] ++ [0, 0, 255, 255] ++ [128, 0, 0, 0]

/-- The peer opens a channel and closes it twice. -/
def hostile : List (WireAct Unit) :=
  heard openPacket 2 ++ heard [97, 0, 0, 0, 0] 12 ++ heard [97, 0, 0, 0, 0] 4

instance (m : Mux ι) (a : WireAct ι) : Decidable (m.Sensible a) :=
  have : Decidable (a = .packet []) := match a with
    | .packet [] => isTrue rfl
    | .packet (_ :: _) | .pass .. => isFalse nofun
  inferInstanceAs (Decidable (_ ∧ _))

/-- The peer opens two channels, closes the first and opens a third, which gets its slot. -/
def reopened : List (WireAct Unit) :=
  heard openPacket 2 ++ heard openPacket 2 ++ heard [97, 0, 0, 0, 0] 12 ++ heard openPacket 2

theorem slot_own_reopened : ∃ m e, exec onWire newMux reopened = some m ∧
    m.chanList.chans = [some 2, some 1] ∧ m.chans[2]? = some e ∧ e.ch.localId = 0 ∧ e.Open ∧
      ∀ j, m.chanList.slot j = some 2 → j = 0 := by
  have hg : Along onWire Sensible newMux reopened := by decide +kernel
  have h : ∃ m, exec onWire newMux reopened = some m ∧ m.chanList.chans = [some 2, some 1] :=
    ⟨_, rfl, rfl⟩
  obtain ⟨m, hm, hc⟩ := h
  obtain ⟨e, he, hid, ho, hj⟩ := slot_own (i := 0) (k := 2) hg hm (by rw [ChanList.slot, hc]; rfl)
  exact ⟨m, e, hm, hc, he, hid, ho, hj⟩

theorem never_panicked_hostile : ∃ m, exec onWire newMux hostile = some m ∧
    m.pc = .done ∧ ∀ text, m.pc ≠ .panicked text := by
  have h : ∃ m, exec onWire newMux hostile = some m ∧ m.pc = .done :=
    ⟨_, rfl, rfl⟩
  obtain ⟨m, hm, hpc⟩ := h
  have hg : Along onWire Sensible newMux hostile := by decide +kernel
  exact ⟨m, hm, hpc, never_panicked hg hm⟩

theorem add_of_full {c : ChanList} (h : ∀ x ∈ c.chans, x.isSome = true) (ch : Nat) :
    c.add ch = (u32 c.chans.length, ⟨c.chans ++ [some ch]⟩) := by
  have hf : c.chans.findIdx? Option.isNone = none := by
    rw [findIdx?_eq_none_iff]
    intro x hx
    rw [Option.isNone_eq_false_iff]
    exact h x hx
  rw [ChanList.add, hf]

def grown (m : Mux ι) (rest : List (Endpoint ι)) (slots : List (Option Nat)) (waiting : List Nat) :
    Mux ι :=
  { m with chans := m.chans ++ rest, chanList := ⟨m.chanList.chans ++ slots⟩, waiting }

theorem onWire_openChannel (u : Untracked) (h : ∀ x ∈ m.chanList.chans, x.isSome = true) :
    ∃ e, m.onWire (.pass (.act .openChannel) u) =
      some (m.grown [e] [some m.chans.length] (m.chans.length :: m.waiting)) := by
  have hc : m.crash (.act .openChannel) u = none := crash_of rfl
  refine ⟨.start (Channel.openChannel (u32 m.chanList.chans.length)) false [], ?_⟩
  rw [onWire, hc]
  · change some { m.newChannel Channel.openChannel with waiting := m.chans.length :: m.waiting } = _
    rw [newChannel, add_of_full h]
    rfl
  · simp

theorem exec_openChannels (u : Untracked) (n : Nat)
    (h : ∀ x ∈ m.chanList.chans, x.isSome = true) :
    ∃ rest slots waiting, slots.length = n ∧
      exec onWire m (replicate n (.pass (.act .openChannel) u)) =
        some (m.grown rest slots waiting) := by
  induction n generalizing m with
  | zero => exact ⟨[], [], m.waiting, rfl, by simp [exec, grown]⟩
  | succ n ih =>
    obtain ⟨e, he⟩ := onWire_openChannel u h
    obtain ⟨rest, slots, waiting, hl, hrun⟩ := ih
      (m := m.grown [e] [some m.chans.length] (m.chans.length :: m.waiting)) (by
        intro x hx
        obtain hx | hx := mem_append.mp hx
        · exact h x hx
        · rw [mem_singleton.mp hx]
          rfl)
    refine ⟨e :: rest, some m.chans.length :: slots, waiting, congrArg (· + 1) hl, ?_⟩
    rw [replicate_succ, exec, he, Option.bind_some, hrun]
    simp [grown]

theorem onWire_loop (hp : m.pc = .handle k) (choice : LoopChoice) (u : Untracked) :
    m.onWire (.pass (.act (.loop choice)) u) = m.next (.loop choice) := by
  have hc : m.crash (.act (.loop choice)) u = none := by
    apply crash_of
    simp only [stepPanics, loopPanics, hp]
    cases m.chans[k]? with
    | none => rfl
    | some e => rw [Option.bind_some, ChanList.indexPanics_eq, ite_self]
  rw [onWire, hc]
  · rfl
  · exact nofun

def closing (ops : List Op) : Mux Unit :=
  { (newMux : Mux Unit) with
    chans := [⟨{ Channel.openChannel 0 with sentClose := true }, fun _ => .idle, ops, false,
      [.received .close, .sent .close]⟩]
    chanList := ⟨[some 0]⟩
    waiting := [0]
    pc := .handle 0 }

theorem closing_remove (h : u32 (slots.length + 1) = 0) (rest : List (Endpoint Unit))
    (waiting : List Nat) (ops : List Op) (u : Untracked) :
    ((closing (.remove :: ops)).grown rest slots waiting).onWire (.pass (.act (.loop .comm)) u) =
      some ((closing ops).grown rest slots waiting) := by
  have hkeep : (⟨some 0 :: slots⟩ : ChanList).remove 0 = ⟨some 0 :: slots⟩ := by
    rw [ChanList.remove, length_cons, h]
    rfl
  rw [onWire_loop rfl]
  change some { (closing ops).grown rest slots waiting with
    chanList := (⟨some 0 :: slots⟩ : ChanList).remove 0 } = _
  rw [hkeep]
  rfl

def closeAmong (n : Nat) (u : Untracked) : List (WireAct Unit) :=
  [.pass (.act .openChannel) u, .packet [97, 0, 0, 0, 0], .pass (.act (.loop .comm)) u] ++
    (replicate n (.pass (.act .openChannel) u) ++
      (.pass (.act (.loop .comm)) u ::
        (replicate 10 (.pass (.act (.loop .comm)) u) ++
          .pass (.act (.readError .eof)) u :: replicate 5 (.pass (.act (.loop .comm)) u))))

theorem closeAmong_panics (h : u32 (n + 1) = 0) (u : Untracked) :
    ∃ m, (∀ a ∈ closeAmong n u, a ≠ .packet []) ∧ exec onWire newMux (closeAmong n u) = some m ∧
      m.pc = .panicked "close of closed channel" := by
  have hne : ∀ a ∈ closeAmong n u, a ≠ .packet [] := by
    simp only [closeAmong, mem_append, mem_cons, mem_replicate, not_mem_nil]
    rintro a ((rfl | rfl | rfl | h) | ⟨-, rfl⟩ | rfl | ⟨-, rfl⟩ | rfl | ⟨-, rfl⟩) <;>
      first | exact h.elim | simp
  have hstart : exec onWire newMux [.pass (.act .openChannel) u, .packet [97, 0, 0, 0, 0],
      .pass (.act (.loop .comm)) u] = some (closing (.remove :: Op.close)) := rfl
  obtain ⟨rest, slots, waiting, hl, hopen⟩ :=
    exec_openChannels (m := closing (.remove :: Op.close)) u n (by decide)
  rw [closeAmong, exec_append, hstart, Option.bind_some, exec_append, hopen,
    Option.bind_some, exec, closing_remove (hl ▸ h), Option.bind_some]
  exact ⟨_, hne, rfl, rfl⟩

/-- With 2^32 channels the mux closes the Go channels of one of them twice. -/
theorem panicked_of_full_list :
    ∃ (as : List (WireAct Unit)) (m : Mux Unit), (∀ a ∈ as, a ≠ .packet []) ∧
      exec onWire newMux as = some m ∧ m.pc = .panicked "close of closed channel" :=
  ⟨_, closeAmong_panics (n := 2 ^ 32 - 1) (by decide) nothing⟩

end Mux
end XCryptoSsh
