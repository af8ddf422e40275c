import XCryptoSsh.KeyedEndSteps

namespace XCryptoSsh
open Go Machine List Option
set_option autoImplicit true

namespace KeyExchange

def init (k : KeyExchange) (isServer : Bool) : Packet :=
  if isServer then k.serverInit else k.clientInit

def message (k : KeyExchange) (isServer : Bool) : Packet :=
  if isServer then k.serverMsg else k.clientMsg

structure Of (k : KeyExchange) (isServer : Bool) (own other : List ConnWrite) : Prop where
  ownInit : (inits own)[k.number]? = some (k.init isServer)
  otherInit : (inits other)[k.number]? = some (k.init !isServer)
  ownMsg : (messages own)[k.number]? = some (k.message isServer)
  otherMsg : (messages other)[k.number]? = some (k.message !isServer)

variable {k k' : KeyExchange} {b : Bool} {own other : List ConnWrite}

theorem Of.symm (h : k.Of b own other) : k.Of (!b) other own := by
  refine ⟨h.otherInit, ?_, h.otherMsg, ?_⟩
  · rw [Bool.not_not]
    exact h.ownInit
  · rw [Bool.not_not]
    exact h.ownMsg

theorem Of.append (h : k.Of b own other) (own' other' : List ConnWrite) :
    k.Of b (own ++ own') (other ++ other') := by
  refine ⟨?_, ?_, ?_, ?_⟩
  · rw [inits_append]
    exact getElem?_of_append h.ownInit
  · rw [inits_append]
    exact getElem?_of_append h.otherInit
  · rw [messages_append]
    exact getElem?_of_append h.ownMsg
  · rw [messages_append]
    exact getElem?_of_append h.otherMsg

theorem Of.unique (h : k.Of b own other) (h' : k'.Of b own other) (hn : k.number = k'.number) :
    k = k' := by
  have h₁ := some.inj ((hn ▸ h.ownInit).symm.trans h'.ownInit)
  have h₂ := some.inj ((hn ▸ h.otherInit).symm.trans h'.otherInit)
  have h₃ := some.inj ((hn ▸ h.ownMsg).symm.trans h'.ownMsg)
  have h₄ := some.inj ((hn ▸ h.otherMsg).symm.trans h'.otherMsg)
  obtain ⟨n, ci, si, cm, sm⟩ := k
  obtain ⟨n', ci', si', cm', sm'⟩ := k'
  cases b <;> simp_all [init, message]

end KeyExchange

theorem KeyedCipher.eq_of_epoch {c c' : KeyedCipher} (h : ∀ k, c = some k → k.Of b own other)
    (h' : ∀ k, c' = some k → k.Of b own other) (he : c.epoch = c'.epoch) : c = c' := by
  cases c with
  | none =>
    cases c' with
    | none => rfl
    | some k' => cases he
  | some k =>
    cases c' with
    | none => cases he
    | some k' => exact congrArg some ((h k rfl).unique (h' k' rfl) (Nat.succ.inj he))

def Stamped (G : KeyExchange → Prop) : List ConnWrite → List Frame → Prop
  | _, [] => True
  | l, f :: fs => (f.seqNum = .ofNat l.length ∧ f.cipher.epoch = changes l ∧
      ∀ k, f.cipher = some k → G k) ∧ Stamped G (l ++ [f.connWrite]) fs

theorem Stamped.mono {fs : List Frame} (h : Stamped G l fs) (hG : ∀ k, G k → G' k) :
    Stamped G' l fs := by
  induction fs generalizing l with
  | nil => trivial
  | cons f fs ih =>
    exact ⟨⟨h.1.1, h.1.2.1, fun k hk => hG k (h.1.2.2 k hk)⟩, ih h.2⟩

theorem Stamped.concat {fs : List Frame} (h : Stamped G l fs)
    (hs : f.seqNum = .ofNat (l ++ fs.map Frame.connWrite).length)
    (he : f.cipher.epoch = changes (l ++ fs.map Frame.connWrite))
    (hG : ∀ k, f.cipher = some k → G k) : Stamped G l (fs ++ [f]) := by
  induction fs generalizing l with
  | nil =>
    rw [map_nil, append_nil] at hs he
    exact ⟨⟨hs, he, hG⟩, trivial⟩
  | cons f' fs ih =>
    refine ⟨h.1, ih h.2 ?_ ?_⟩
    · simpa using hs
    · simpa using he

theorem getElem?_of_getLast? {l : List α} {n : Nat} (h : l.getLast? = some a)
    (hn : l.length = n + 1) : l[n]? = some a := by
  rw [List.getLast?_eq_getElem?, hn] at h
  exact h

namespace KeyedEnd

open HandshakeTransport

variable {G : KeyExchange → Prop} {e : KeyedEnd}

theorem InStep.newKey_of (h : e.InStep G heard) (hk : e.transport.kex = .exchange .prepare) :
    e.newKey.Of e.transport.config.isServer e.transport.sent heard := by
  obtain ⟨ph, ho⟩ := h.orderly
  obtain rfl : ph = .message := by
    have hp := ho.phase
    rwa [hk] at hp
  obtain ⟨ph', hw, hh⟩ := h.hears
  obtain ⟨-, rfl⟩ := hh.blocked .message (by rw [hk]; rfl)
  have hsent := counts_of_wirePhase ho.wire
  have hheard := counts_of_wirePhase hw
  have hchanges := h.changes
  rw [hk] at hchanges
  have hn : e.newKey.number = XCryptoSsh.changes e.transport.sent := by
    rw [← h.writer.epoch, newKey, Transcript.keyExchange]
    split <;> rfl
  have hn' : e.newKey.number = XCryptoSsh.changes heard := hn.trans hchanges
  have htr := h.transcript _ hk
  have hinit : e.newKey.init e.transport.config.isServer = e.exchange.ownInit ∧
      e.newKey.init (!e.transport.config.isServer) = e.exchange.otherInit := by
    cases hb : e.transport.config.isServer <;>
      simp [newKey, Transcript.keyExchange, KeyExchange.init, hb]
  have hmsg : e.newKey.message e.transport.config.isServer = e.exchange.ownMsg ∧
      e.newKey.message (!e.transport.config.isServer) = e.exchange.otherMsg := by
    cases hb : e.transport.config.isServer <;>
      simp [newKey, Transcript.keyExchange, KeyExchange.message, hb]
  refine ⟨?_, ?_, ?_, ?_⟩
  · rw [hinit.1, hn]
    exact getElem?_of_getLast? htr.ownInit hsent.1
  · rw [hinit.2, hn']
    exact getElem?_of_getLast? htr.otherInit hheard.1
  · rw [hmsg.1, hn]
    exact getElem?_of_getLast? (htr.ownMsg (by decide)) hsent.2
  · rw [hmsg.2, hn']
    exact getElem?_of_getLast? (htr.otherMsg (by decide)) hheard.2

/-- No failure, no stop, no DISCONNECT; ends of this package never guess. -/
def Smooth (e : KeyedEnd) (inbox : List Frame) : EndAct → Prop
  | .run a => e.transport.Smooth a ∧ a.guessed = false
  | .receive _ => ∀ f ∈ inbox.head?, f.packet.tag ≠ msgDisconnect

instance (e : KeyedEnd) (inbox : List Frame) : (a : EndAct) → Decidable (e.Smooth inbox a)
  | .run a => inferInstanceAs (Decidable (e.transport.Smooth a ∧ a.guessed = false))
  | .receive _ =>
    inferInstanceAs (Decidable (∀ f ∈ inbox.head?, f.packet.tag ≠ msgDisconnect))

structure Linked (x y : KeyedEnd) (xy yx : List Frame) (xHeard yHeard : List ConnWrite) : Prop where
  role : y.transport.config.isServer = !x.transport.config.isServer
  left : x.InStep
    (fun k => k.Of x.transport.config.isServer x.transport.sent y.transport.sent) xHeard
  right : y.InStep
    (fun k => k.Of x.transport.config.isServer x.transport.sent y.transport.sent) yHeard
  sent : x.transport.sent = yHeard ++ xy.map Frame.connWrite
  received : y.transport.sent = xHeard ++ yx.map Frame.connWrite
  outgoing : Stamped
    (fun k => k.Of x.transport.config.isServer x.transport.sent y.transport.sent) yHeard xy
  incoming : Stamped
    (fun k => k.Of x.transport.config.isServer x.transport.sent y.transport.sent) xHeard yx

variable {x y x' : KeyedEnd} {xy yx yx' out : List Frame} {xHeard yHeard : List ConnWrite}

theorem Linked.symm (h : Linked x y xy yx xHeard yHeard) : Linked y x yx xy yHeard xHeard := by
  have hG (k : KeyExchange)
      (hk : k.Of x.transport.config.isServer x.transport.sent y.transport.sent) :
      k.Of y.transport.config.isServer y.transport.sent x.transport.sent := by
    rw [h.role]
    exact hk.symm
  exact {
    role := by rw [h.role, Bool.not_not]
    left := h.right.mono hG
    right := h.left.mono hG
    sent := h.received
    received := h.sent
    outgoing := h.incoming.mono hG
    incoming := h.outgoing.mono hG }

theorem Linked.fits (h : Linked x y xy (f :: fs) xHeard yHeard) :
    f.cipher = x.reader.packetCipher ∧ f.seqNum = x.reader.seqNum := by
  obtain ⟨⟨hs, he, hG⟩, -⟩ := h.incoming
  refine ⟨KeyedCipher.eq_of_epoch hG h.left.reader.current ?_, ?_⟩
  · rw [he, h.left.reader.epoch]
  · rw [hs, h.left.reader.seqNum]

theorem Linked.next (h : Linked x y xy (f :: fs) xHeard yHeard) :
    (∃ ph, wirePhase true (xHeard ++ [f.connWrite]) = some ph) ∧
      (f.origin = .kex → f.packet.isKexMessage = true ∨ f.packet.tag = msgNewKeys) := by
  obtain ⟨ph, ho⟩ := h.right.orderly
  have hsent := h.received
  refine ⟨?_, ?_⟩
  · have hw := ho.wire
    rw [hsent, map_cons, ← singleton_append, ← append_assoc] at hw
    exact wirePhase_of_append hw
  · refine h.right.kexTags f.connWrite ?_
    rw [hsent]
    exact mem_append_right _ mem_cons_self

theorem config_run (h : e.run a = some (e', out)) : e'.transport.config = e.transport.config := by
  obtain ⟨t, e₁, ht, -, hr⟩ := run_cases h
  have he : e'.transport = t := by
    unfold flush at hr
    split at hr
    · cases hr
      rfl
    · unfold write at hr
      split at hr <;> cases hr <;> rfl
  rw [he]
  exact (step_static ht).1

theorem config_receive (h : e.receive kexLoop f = some e') :
    e'.transport.config = e.transport.config := by
  unfold receive at h
  split at h
  · dsimp only at h
    split at h
    · cases h
      rfl
    · obtain ⟨t, ht, rfl⟩ := map_eq_some_iff.mp h
      exact (step_static ht).1
  · cases h

theorem Linked.run (h : Linked x y xy yx xHeard yHeard) (hg : x.transport.Smooth a)
    (hn : a.guessed = false) (hp : a.takes = false) (hs : x.run a = some (x', out)) :
    Linked x' y (xy ++ out) yx xHeard yHeard := by
  have hnew (hk : x.transport.kex = .exchange .prepare) :
      x.newKey.Of x.transport.config.isServer x.transport.sent y.transport.sent := by
    have hof := (h.left.newKey_of hk).append [] (yx.map Frame.connWrite)
    rwa [append_nil, ← h.received] at hof
  have hc := config_run hs
  obtain ⟨hin, ⟨rfl, hsent⟩ | ⟨w, rfl, hw, hsent⟩⟩ := h.left.run hg hn hp hnew hs
  · exact {
      role := by rw [hc]; exact h.role
      left := by rw [hc, hsent]; exact hin
      right := by rw [hc, hsent]; exact h.right
      sent := by rw [hsent, append_nil]; exact h.sent
      received := h.received
      outgoing := by rw [hc, hsent, append_nil]; exact h.outgoing
      incoming := by rw [hc, hsent]; exact h.incoming }
  · have hG (k : KeyExchange)
        (hk : k.Of x.transport.config.isServer x.transport.sent y.transport.sent) :
        k.Of x.transport.config.isServer (x.transport.sent ++ [w]) y.transport.sent := by
      have hof := hk.append [w] []
      rwa [append_nil] at hof
    have hframe : (⟨w.origin, w.packet, x.writer.packetCipher, x.writer.seqNum⟩ :
        Frame).connWrite = w := by
      obtain ⟨o, p, r⟩ := w
      cases hw
      rfl
    refine {
      role := by rw [hc]; exact h.role
      left := by rw [hc, hsent]; exact hin.mono hG
      right := by rw [hc, hsent]; exact h.right.mono hG
      sent := by
        rw [hsent, map_append, ← append_assoc, ← h.sent, map_singleton, hframe]
      received := h.received
      outgoing := ?_
      incoming := by rw [hc, hsent]; exact h.incoming.mono hG }
    rw [hc, hsent]
    refine (h.outgoing.mono hG).concat ?_ ?_ fun k hk => hG k (h.left.writer.current k hk)
    · rw [← h.sent]
      exact h.left.writer.seqNum
    · rw [← h.sent]
      exact h.left.writer.epoch

theorem Linked.receive (h : Linked x y xy (f :: fs) xHeard yHeard)
    (hd : f.packet.tag ≠ msgDisconnect) (hs : x.receive kexLoop f = some x') :
    Linked x' y xy fs (xHeard ++ [f.connWrite]) yHeard := by
  obtain ⟨hcipher, hseq⟩ := h.fits
  obtain ⟨⟨ph, hw⟩, ht⟩ := h.next
  obtain ⟨hin, hsent⟩ := h.left.receive hw ht hcipher hseq hd hs
  have hc := config_receive hs
  exact {
    role := by rw [hc]; exact h.role
    left := by rw [hc, hsent]; exact hin
    right := by rw [hc, hsent]; exact h.right
    sent := by rw [hsent]; exact h.sent
    received := by rw [h.received, append_assoc]; rfl
    outgoing := by rw [hc, hsent]; exact h.outgoing
    incoming := by rw [hc, hsent]; exact h.incoming.2 }

theorem Linked.step (h : Linked x y xy yx xHeard yHeard) (hg : x.Smooth yx a)
    (hs : x.step yx a = some (x', yx', out)) :
    ∃ xHeard', Linked x' y (xy ++ out) yx' xHeard' yHeard := by
  cases a with
  | run a =>
    simp only [KeyedEnd.step] at hs
    split at hs
    · cases hs
    rename_i hp
    obtain ⟨⟨x'', out'⟩, hrun, hr⟩ := map_eq_some_iff.mp hs
    cases hr
    exact ⟨xHeard, h.run hg.1 hg.2 (by simpa using hp) hrun⟩
  | receive kexLoop =>
    simp only [KeyedEnd.step] at hs
    split at hs
    · cases hs
    rename_i f fs
    obtain ⟨x'', hrec, hr⟩ := map_eq_some_iff.mp hs
    cases hr
    rw [append_nil]
    exact ⟨_, h.receive (hg f rfl) hrec⟩

theorem Linked.reads_ok (h : Linked x y xy (f :: fs) xHeard yHeard)
    (hr : reads x.transport kexLoop = true) (hd : f.packet.tag ≠ msgDisconnect) :
    (x.reader.readPacket (f.decrypt x.reader)).1 = .ok f.packet.bytes := by
  obtain ⟨⟨ph, hw⟩, -⟩ := h.next
  have hdec : f.decrypt x.reader = .ok f.packet.bytes := if_pos h.fits
  rw [hdec]
  exact (h.left.reader.readPacket (w := f.connWrite)
    (fun htag => h.left.keysIn_of_reads hw hr htag) hd).1

end KeyedEnd

namespace KeyedPair

open KeyedEnd (Linked)

def Smooth (p : KeyedPair) : Act → Prop
  | .client a => p.client.Smooth p.toClient a
  | .server a => p.server.Smooth p.toServer a

instance (p : KeyedPair) : (a : Act) → Decidable (p.Smooth a)
  | .client a => inferInstanceAs (Decidable (p.client.Smooth p.toClient a))
  | .server a => inferInstanceAs (Decidable (p.server.Smooth p.toServer a))

/-- The next frame for an end that has not panicked has the cipher and the number of its reader, and
whichever goroutine reads it gets the packet, unless that is DISCONNECT. -/
def InStep (e : KeyedEnd) (inbox : List Frame) : Prop :=
  e.panicked = false ∧ ∀ f ∈ inbox.head?,
    f.cipher = e.reader.packetCipher ∧ f.seqNum = e.reader.seqNum ∧
      ∀ kexLoop, KeyedEnd.reads e.transport kexLoop = true → f.packet.tag ≠ msgDisconnect →
        (e.reader.readPacket (f.decrypt e.reader)).1 = .ok f.packet.bytes

theorem inStep_of_linked {x y : KeyedEnd} (h : Linked x y xy yx xHeard yHeard) : InStep x yx := by
  refine ⟨h.left.running, ?_⟩
  intro f hf
  cases yx with
  | nil => cases hf
  | cons f' fs =>
    cases hf
    exact ⟨h.fits.1, h.fits.2, fun kexLoop hr hd => h.reads_ok hr hd⟩

/-- Two ends over FIFO links read every packet with the cipher and the sequence number it was
written with, find a cipher at every NEWKEYS and never panic, as long as nothing fails. -/
theorem inStep_run (clientThreshold serverThreshold : Nat) (as : List Act) (p : KeyedPair)
    (hg : Along step Smooth (new clientThreshold serverThreshold) as)
    (h : exec step (new clientThreshold serverThreshold) as = some p) :
    InStep p.client p.toClient ∧ InStep p.server p.toServer := by
  have hi : ∃ cHeard sHeard,
      Linked p.client p.server p.toServer p.toClient cHeard sHeard := by
    refine run_invariant (I := fun p => ∃ cHeard sHeard,
      Linked p.client p.server p.toServer p.toClient cHeard sHeard) ?_ ?_ hg h
    · rintro p a p' ⟨cHeard, sHeard, hp⟩ hga hs
      cases a with
      | client a =>
        obtain ⟨⟨e, inbox, out⟩, he, hr⟩ := map_eq_some_iff.mp hs
        cases hr
        obtain ⟨cHeard', hp'⟩ := hp.step hga he
        exact ⟨cHeard', sHeard, hp'⟩
      | server a =>
        obtain ⟨⟨e, inbox, out⟩, he, hr⟩ := map_eq_some_iff.mp hs
        cases hr
        obtain ⟨sHeard', hp'⟩ := hp.symm.step hga he
        exact ⟨cHeard, sHeard', hp'.symm⟩
    · exact ⟨[], [], {
        role := rfl
        left := KeyedEnd.inStep_new _
        right := KeyedEnd.inStep_new _
        sent := rfl
        received := rfl
        outgoing := trivial
        incoming := trivial }⟩
  obtain ⟨cHeard, sHeard, hp⟩ := hi
  exact ⟨inStep_of_linked hp, inStep_of_linked hp.symm⟩

section Crossing

open HandshakeTransport (Action)

variable (side : EndAct → Act)

def runs (as : List Action) : List Act := as.map fun a => side (.run a)

def sendsInit (body : List UInt8) : List Act :=
  runs side [.kex .go, .kex .requestKex, .kex .go, .kex (.push body none)]

def hearsInit : List Act :=
  side (.receive false) :: runs side [.read .go, .read .go, .kex .startKex, .kex .go,
    .kex (.parsed ⟨"", "", ⟨"", "", ""⟩, ⟨"", "", ""⟩⟩ false)]

def sendsNewKeys : List Act :=
  runs side [.kex (.result [5]), .kex .go, .kex (.wrote ⟨msgNewKeys, []⟩ none)]

def finishes : List Act :=
  side (.receive true) :: runs side [.kex .go, .kex .go, .kex .go, .kex .go, .read .go, .read .go]

/-- A key exchange that both ends ask for, a packet of the client under the new keys, and KEXINITs
that cross again. -/
def crossingSchedule : List Act :=
  sendsInit .client [1] ++ sendsInit .server [2] ++ hearsInit .client ++ hearsInit .server ++
    runs .client [.kex (.wrote ⟨30, [3]⟩ none)] ++ [.server (.receive true)] ++
    runs .server [.kex (.wrote ⟨31, [4]⟩ none)] ++ sendsNewKeys .server ++
    [.client (.receive true)] ++ sendsNewKeys .client ++ finishes .client ++ finishes .server ++
    runs .client [.call ⟨94, [6]⟩, .writer 0 none, .writer 0 none, .writer 0 none, .writer 0 none,
      .requestKeyExchange] ++ runs .server [.requestKeyExchange] ++ sendsInit .client [7] ++
    sendsInit .server [8]

end Crossing

theorem inStep_run_crossing :
    ∃ p, exec step (new 0 0) crossingSchedule = some p ∧
      p.toServer.map (fun f => f.cipher.epoch) = [1, 1] ∧
      InStep p.client p.toClient ∧ InStep p.server p.toServer := by
  have hg : Along step Smooth (new 0 0) crossingSchedule := by decide +kernel
  have hrun : (exec step (new 0 0) crossingSchedule).any
      (fun p => p.toServer.map (fun f => f.cipher.epoch) == [1, 1]) = true := by decide +kernel
  cases hp : exec step (new 0 0) crossingSchedule with
  | none =>
    rw [hp] at hrun
    cases hrun
  | some p =>
    rw [hp] at hrun
    exact ⟨p, rfl, beq_iff_eq.mp hrun, inStep_run 0 0 crossingSchedule p hg hp⟩

end KeyedPair

end XCryptoSsh
