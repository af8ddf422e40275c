import XCryptoSsh.HandshakeMutex

namespace XCryptoSsh
open Machine List Option
set_option autoImplicit true

def KexPc.away : KexPc → Bool
  | .top | .select _ false | .clear | .notify | .flush _ => false
  | _ => true

/-- The packets written before the thresholds were last reset, and those among the later ones that
`kexLoop` took from the queue. -/
structure KeyUse where
  before : List Packet
  flushed : List Packet
  deriving DecidableEq

def bytes (l : List Packet) : Int := (l.map fun p => (p.length : Int)).sum

theorem bytes_append (l l' : List Packet) : bytes (l ++ l') = bytes l + bytes l' := by
  simp [bytes]

namespace HandshakeTransport

variable {t t' : HandshakeTransport} {u : KeyUse}

def record (t : HandshakeTransport) (u : KeyUse) : Action → KeyUse
  | .kex .go => match t.kex with
    | .lockFinish _ => ⟨appPackets t.sent, []⟩
    | _ => u
  | .kex (.push ..) => match t.kex with
    | .flush (p :: _) => { u with flushed := u.flushed ++ [p] }
    | _ => u
  | _ => u

def stepUse (s : HandshakeTransport × KeyUse) (a : Action) : Option (HandshakeTransport × KeyUse) :=
  (s.1.step a).map (·, s.1.record s.2 a)

def pushing (t : HandshakeTransport) : List Packet := heldAt .push t.mu t.writers

/-- The counters say what has been written under the key, but for the packets from the queue. -/
def Exact (t : HandshakeTransport) (u : KeyUse) : Prop :=
  ∃ l, appPackets t.sent = u.before ++ l ∧
    (l ++ t.pushing).length + t.writePacketsLeft = packetRekeyThreshold + u.flushed.length ∧
    bytes (l ++ t.pushing) + t.writeBytesLeft =
      t.config.bytesLeft (t.algorithms.map Algorithms.w) + bytes u.flushed

/-- An exchange is going on, or the counters are exact, or an exchange has been asked for and the
request is not about to be dropped. -/
def Accounted (t : HandshakeTransport) (u : KeyUse) : Prop :=
  t.kex.away = true ∨ t.Exact u ∨ t.kex ≠ .clear ∧ t.requestKex = true

theorem Accounted.request (h : t.Accounted u) : t.requestKeyExchange.Accounted u := by
  rcases h with h | h | h
  · exact .inl h
  · exact .inr (.inl h)
  · exact .inr (.inr ⟨h.1, rfl⟩)

theorem Accounted.move (h : t.Accounted u) (hk : t'.kex = t.kex)
    (hq : t'.requestKex = t.requestKex) (he : t.Exact u → t'.Exact u') : t'.Accounted u' := by
  rw [Accounted, hk, hq]
  exact h.imp_right (Or.imp_left he)

theorem Accounted.count (h : t.Accounted u) (he : t.Exclusive)
    (hw : t.writers[i]? = some ⟨p, .check⟩) :
    ((t.countWriteBytes p).countWritePacket.setWriter i .push).Accounted u := by
  have hmu := he.writer hw rfl
  have hk : t.kex ≠ .clear := by
    intro hk
    have hin := he.not_kex_inside hw rfl
    rw [hk] at hin
    cases hin
  have hp : t.pushing = [] := by
    rw [pushing, hmu, heldAt_writer hw]
    rfl
  have hp' : heldAt .push t.mu (setPc t.writers i .push) = [p] := by
    rw [hmu, heldAt_writer (setPc_self hw _)]
    rfl
  unfold countWritePacket countWriteBytes
  by_cases hb : 0 < t.writeBytesLeft
  · rw [if_pos hb]
    dsimp only
    split
    · refine h.move rfl rfl ?_
      rintro ⟨l, hl, hn, hb⟩
      rw [hp, append_nil] at hn hb
      refine ⟨l, hl, ?_, ?_⟩
      · simp only [pushing, setWriter, hp', length_append, length_singleton]
        omega
      · simp only [pushing, setWriter, hp', bytes_append]
        simp only [bytes, map_singleton, sum_singleton] at *
        omega
    · exact .inr (.inr ⟨hk, rfl⟩)
  · rw [if_neg hb]
    split <;> exact .inr (.inr ⟨hk, rfl⟩)

theorem Exact.write (h : t.Exact u) (hs : appPackets t'.sent = appPackets t.sent ++ [p])
    (hp : (t'.pushing = [] ∧ t.pushing = [p] ∧ u' = u) ∨
      t'.pushing = t.pushing ∧ u' = { u with flushed := u.flushed ++ [p] })
    (hn : t'.writePacketsLeft = t.writePacketsLeft) (hb : t'.writeBytesLeft = t.writeBytesLeft)
    (hc : t'.config = t.config) (ha : t'.algorithms = t.algorithms) : t'.Exact u' := by
  obtain ⟨l, hl, hpackets, hbytes⟩ := h
  refine ⟨l ++ [p], ?_, ?_, ?_⟩
  · obtain ⟨-, -, rfl⟩ | ⟨-, rfl⟩ := hp <;> rw [hs, hl, append_assoc]
  · rw [hn]
    obtain ⟨hp', hp, rfl⟩ | ⟨hp, rfl⟩ := hp
    · rw [hp', append_nil, ← hp]
      exact hpackets
    · rw [hp]
      simp only [length_append, length_singleton] at *
      omega
  · rw [hb, hc, ha]
    obtain ⟨hp', hp, rfl⟩ | ⟨hp, rfl⟩ := hp
    · rw [hp', append_nil, ← hp]
      exact hbytes
    · rw [hp]
      simp only [bytes_append] at *
      omega

theorem Accounted.countRead (h : t.Accounted u) (p : Packet) :
    (t.countReadPacket.countReadBytes p).Accounted u := by
  have hp : t.countReadPacket.Accounted u := by
    unfold countReadPacket
    split
    · exact h
    · exact h.request
  unfold countReadBytes
  split
  · exact hp
  · exact hp.request

theorem Accounted.kexStep (h : t.Accounted u) (he : t.Exclusive) (hs : t.stepKex c = some t') :
    t'.Accounted (t.record u (.kex c)) := by
  have hin (hk : t.kex.inside = true) : t.pushing = [] := by
    rw [pushing, he.kex hk]
    rfl
  cases stepKex_cases hs with
  | finish hk hmu =>
    simp only [stepKex, hk, hmu, if_true, some.injEq] at hs
    simp only [record, hk, ← hs]
    exact .inr (.inl ⟨[], (append_nil _).symm, Nat.add_comm .., Int.add_comm ..⟩)
  | clear hk =>
    simp only [record, hk]
    rcases h with h | h | h
    · cases hk ▸ h
    · exact .inr (.inl h)
    · exact absurd hk h.1
  | flush hk r =>
    simp only [record, hk]
    rcases h with h | h | h
    · cases hk ▸ h
    · refine .inr (.inl (h.write ?_ (.inr ⟨rfl, rfl⟩) rfl rfl rfl rfl))
      exact appPackets_append ..
    · exact .inr (.inr ⟨by simp, h.2⟩)
  | unlock hk =>
    simp only [record, hk]
    rcases h with h | ⟨l, hl, h⟩ | h
    · cases hk ▸ h
    · rw [hin (hk ▸ rfl)] at h
      exact .inr (.inl ⟨l, hl, h⟩)
    · exact .inr (.inr ⟨by simp, h.2⟩)
  | enter hk | cleared hk | notify hk =>
    simp only [record, hk]
    rcases h with h | h | h
    · cases hk ▸ h
    · exact .inr (.inl h)
    · exact .inr (.inr ⟨by simp, h.2⟩)
  | exchange hk hx => cases hx <;> exact .inl rfl
  | @initAlready request | @initPushed request => cases request <;> exact .inl rfl
  | _ => exact .inl rfl

theorem Exact.still (h : t.Exact u) (hp : t'.pushing = t.pushing)
    (ht : t'.sent = t.sent ∧ t'.writePacketsLeft = t.writePacketsLeft ∧
      t'.writeBytesLeft = t.writeBytesLeft ∧ t'.config = t.config ∧
      t'.algorithms = t.algorithms) : t'.Exact u := by
  obtain ⟨hs, hn, hb, hc, ha⟩ := ht
  rwa [Exact, hp, hs, hn, hb, hc, ha]

theorem Accounted.writerStep (h : t.Accounted u) (he : t.Exclusive)
    (hs : t.stepWriter i r = some t') : t'.Accounted u := by
  have hheld {w : Writer} (hw : t.writers[i]? = some w) (pc : WriterPc) :
      heldAt .push (some (.writer i)) (setPc t.writers i pc) =
        if pc = .push then [w.packet] else [] := heldAt_writer (setPc_self hw pc)
  have hpushing {w : Writer} (hw : t.writers[i]? = some w) (hin : w.pc.inside = true) :
      t.pushing = if w.pc = .push then [w.packet] else [] := by
    rw [pushing, he.writer hw hin, heldAt_writer hw]
  cases stepWriter_cases hs with
  | count hw hn hi =>
    simp only [stepWriter, hw, hn, hi, if_true, some.injEq] at hs
    exact hs ▸ h.count he hw
  | push hw =>
    refine h.move rfl rfl fun h => h.write (appPackets_append ..) (.inl ⟨?_, hpushing hw rfl, rfl⟩)
      rfl rfl rfl rfl
    change heldAt .push t.mu _ = []
    rw [he.writer hw rfl]
    exact hheld hw _
  | lock hw hmu =>
    refine h.move rfl rfl fun h => h.still ?_ ⟨rfl, rfl, rfl, rfl, rfl⟩
    rw [pushing, pushing, hmu]
    exact hheld hw _
  | unlock hw =>
    refine h.move rfl rfl fun h => h.still ?_ ⟨rfl, rfl, rfl, rfl, rfl⟩
    exact (hpushing hw rfl).symm
  | refuse hw | queue hw =>
    refine h.move rfl rfl fun h => h.still ?_ ⟨rfl, rfl, rfl, rfl, rfl⟩
    rw [hpushing hw rfl]
    change heldAt .push t.mu _ = []
    rw [he.writer hw rfl]
    exact hheld hw _

theorem pushing_call (t : HandshakeTransport) (p : Packet) :
    (t.callWritePacket p).pushing = t.pushing := by
  have hnew (i : Nat) : (t.callWritePacket p).writers[i]? = t.writers[i]? ∨
      t.writers[i]? = none ∧ ∃ w : Writer, (t.callWritePacket p).writers[i]? = some w ∧
        w.pc ≠ .push := by
    rw [callWritePacket, getElem?_append]
    split
    · exact .inl rfl
    rename_i hi
    rw [getElem?_eq_none (Nat.le_of_not_lt hi), getElem?_singleton]
    split
    · refine .inr ⟨rfl, _, rfl, ?_⟩
      dsimp only
      repeat' split
      all_goals simp
    · exact .inl rfl
  change heldAt .push t.mu (t.callWritePacket p).writers = heldAt .push t.mu t.writers
  unfold heldAt
  split
  · rename_i i hmu
    obtain h | ⟨h, w, h', hpc⟩ := hnew i
    · rw [h]
    · rw [h, h']
      exact if_neg hpc
  · rfl

theorem Accounted.step (h : t.Accounted u) (he : t.Exclusive) (hs : t.step a = some t') :
    t'.Accounted (t.record u a) := by
  cases step_cases hs with
  | kex => exact h.kexStep he hs
  | requestKeyExchange => exact h.request
  | writer => exact h.writerStep he hs
  | call => exact h.move rfl rfl fun h => h.still (pushing_call ..) ⟨rfl, rfl, rfl, rfl, rfl⟩
  | read hr =>
    cases hr with
    | got hr =>
      simp only [HandshakeTransport.step, stepRead, hr, some.injEq] at hs
      exact hs ▸ h.countRead _
    | _ => exact h
  | drain hd => cases hd <;> exact h
  | _ => exact h

/-- The counters account for all that is written under a key and was not in the queue, until a key
exchange is asked for. -/
theorem rekey_requested (c : HandshakeConfig) (l : List Action)
    (h : exec stepUse (new c, ⟨[], []⟩) l = some (t, u)) : t.Accounted u := by
  have hrun : t.Exclusive ∧ t.Accounted u := by
    refine run_invariant (G := fun _ _ => True)
      (I := fun s : HandshakeTransport × KeyUse => s.1.Exclusive ∧ s.1.Accounted s.2) ?_
      ⟨exclusive_new c, .inr (.inl ⟨[], rfl, Nat.add_comm .., Int.add_comm ..⟩)⟩
      (along_of_forall fun _ _ _ => trivial) h
    rintro s a s' ⟨he, hi⟩ - hs
    obtain ⟨t', ht, rfl⟩ := map_eq_some_iff.mp hs
    exact ⟨he.step ht, hi.step he ht⟩
  exact hrun.2

/-- The exchange of `queueingSchedule` is completed, and the packet from the queue is written under
the new key without being counted. -/
def flushingSchedule : List Action :=
  queueingSchedule ++ exchangeSchedule.drop 4 ++ [.kex .go, .kex (.push [] none)]

theorem rekey_requested_flushing :
    ∃ t, exec stepUse (new ⟨0, false⟩, ⟨[], []⟩) flushingSchedule =
        some (t, ⟨[⟨94, [1]⟩], [⟨94, [2]⟩]⟩) ∧
      t.writePacketsLeft = packetRekeyThreshold ∧ t.Accounted ⟨[⟨94, [1]⟩], [⟨94, [2]⟩]⟩ := by
  have h : exec stepUse (new ⟨0, false⟩, ⟨[], []⟩) flushingSchedule = some _ := rfl
  exact ⟨_, h, rfl, rekey_requested ⟨0, false⟩ flushingSchedule h⟩

end HandshakeTransport

end XCryptoSsh
