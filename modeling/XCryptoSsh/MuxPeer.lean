import XCryptoSsh.MuxTable

namespace XCryptoSsh
set_option autoImplicit true

open Machine List

/-- How far a channel has come for the peer: not heard of, to be answered, open, or with its last
packet sent. -/
inductive PeerPhase where
  | unknown
  | asked
  | opened
  | ended
  deriving DecidableEq, Repr

/-- The packets that the peer may send, by their kind. Replies are not matched with requests. -/
def PeerPhase.next : PeerPhase → ChanMsg → Option PeerPhase
  | .asked, .openConfirm .. => some .opened
  | .asked, .openFailure _ => some .ended
  | .opened, .close => some .ended
  | .opened, .data .. | .opened, .windowAdjust _ | .opened, .eof | .opened, .request ..
  | .opened, .success | .opened, .failure => some .opened
  | _, _ => none

/-- What the peer knows of a channel: its id, the bytes that the mux and the peer may still send,
and the largest payload that the mux takes. -/
structure PeerChan where
  phase : PeerPhase
  id : Nat
  window : Nat
  credit : Nat
  maxPacket : Nat
  sentEOF : Bool
  deriving DecidableEq, Repr

namespace PeerChan

def unheard : PeerChan := ⟨.unknown, 0, 0, 0, 0, false⟩

def offering (msg : ChannelOpen) : PeerChan := { unheard with window := msg.peersWindow }

/-- No data follows an EOF, data fits into the window and the packets of the mux, and no window
exceeds what its field can hold. -/
def Allows (p : PeerChan) : ChanMsg → Prop
  | .data _ length payload =>
    p.sentEOF = false ∧ length = payload.length ∧ length ≤ p.maxPacket ∧ length ≤ p.credit
  | .windowAdjust n | .openConfirm _ n _ => p.window + n < 2 ^ 32
  | _ => True

instance (p : PeerChan) : (m : ChanMsg) → Decidable (p.Allows m)
  | .data .. => inferInstanceAs (Decidable (_ ∧ _ ∧ _ ∧ _))
  | .windowAdjust _ | .openConfirm .. => inferInstanceAs (Decidable (_ < _))
  | .eof | .close | .openFailure _ | .request .. | .success | .failure | .malformed _ | .other _ =>
    .isTrue trivial

def say (p : PeerChan) (m : ChanMsg) : Option PeerChan :=
  if p.Allows m then
    (p.phase.next m).map fun phase =>
      { p with
        phase := phase
        window := p.window + m.grant
        credit := p.credit - m.payloadLength
        sentEOF := p.sentEOF || m == .eof }
  else none

def learn (p : PeerChan) (phase : PeerPhase) (id maxPacket : Nat) : PeerChan :=
  if p.phase = .unknown then { p with phase, id, maxPacket } else p

def hear (p : PeerChan) (m : ChanMsg) : PeerChan :=
  let p' := { p with window := p.window - m.payloadLength, credit := p.credit + m.grant }
  match m with
  | .openConfirm myId _ maxPacketSize => p'.learn .opened myId maxPacketSize
  | .openFailure _ => p'.learn .ended p.id p.maxPacket
  | _ => p'

def hearOpen (p : PeerChan) (msg : ChannelOpen) : PeerChan :=
  learn { p with credit := p.credit + msg.peersWindow } .asked msg.peersId msg.maxPacketSize

end PeerChan

open ChanMsg Op Effect

def ChanMsg.Lawful : ChanMsg → Prop
  | .data _ length payload => length = payload.length ∧ length ≤ channelMaxPacket
  | .openConfirm _ _ n => minPacketLength ≤ n ∧ n ≤ 2 ^ 31
  | .malformed _ | .other _ => False
  | _ => True

def Op.Lawful (limit : Nat) : Op → Prop
  | .fail _ => False
  | .debit _ length payload =>
    length = payload.length ∧ length ≤ channelMaxPacket ∧ limit = channelMaxPacket
  | .confirm _ _ n => minPacketLength ≤ n ∧ n ≤ 2 ^ 31
  | _ => True

theorem ChanMsg.Lawful.payloadLength_le {m : ChanMsg} (h : m.Lawful) :
    m.payloadLength ≤ maxPacket := by
  cases m with
  | data x n d =>
    obtain ⟨hn, hm⟩ := h
    simp only [payloadLength, maxPacket, channelMaxPacket] at hm ⊢
    omega
  | _ => exact Nat.zero_le _

theorem Op.lawful_handlePacket {m : ChanMsg} (h : m.Lawful)
    (hd : ∀ x n d, m = .data x n d → limit = channelMaxPacket) :
    ∀ op ∈ handlePacket m, op.Lawful limit := by
  cases m with
  | data x n d =>
    intro op ho
    rw [mem_singleton.mp ho]
    exact ⟨h.1, h.2, hd x n d rfl⟩
  | openConfirm i w n =>
    have hn : minPacketLength ≤ n ∧ n ≤ 2 ^ 31 := h
    simpa [handlePacket, Op.Lawful] using hn
  | malformed e => cases h
  | other t => cases h
  | _ => simp [handlePacket, close, Op.Lawful]

theorem Op.respond_mem_handlePacket {m : ChanMsg} (h : .respond ∈ handlePacket m) :
    (∃ i w n, m = .openConfirm i w n) ∨ ∃ f, m = .openFailure f := by
  cases m <;> first
    | exact .inl ⟨_, _, _, rfl⟩
    | exact .inr ⟨_, rfl⟩
    | simp [handlePacket, Op.close] at h

theorem Op.remove_mem_handlePacket {m : ChanMsg} (h : .remove ∈ handlePacket m) :
    m = .close ∨ ∃ f, m = .openFailure f := by
  cases m <;> first
    | exact .inl rfl
    | exact .inr ⟨_, rfl⟩
    | simp [handlePacket] at h

theorem Op.closeMsg_mem_handlePacket {m : ChanMsg} (h : .closeMsg ∈ handlePacket m) :
    m = .close := by
  cases m <;> first | rfl | simp [handlePacket] at h

theorem Op.respond_not_mem_tail (m : ChanMsg) : .respond ∉ (handlePacket m).tail := by
  cases m <;> simp [handlePacket, Op.close]

namespace Endpoint

variable {ι : Type} [Fintype ι] {e e' : Endpoint ι} {p p' : PeerChan} {inb outb : List ChanMsg}

structure Funded (e : Endpoint ι) (p : PeerChan) (inb outb : List ChanMsg) : Prop where
  accounted : e.Accounted
  sends : e.held + bytes outb + grants inb ≤ p.window
  window : p.window < 2 ^ 32
  receives : p.credit + bytes inb + weigh debiting e.loop + e.credited + grants outb ≤ e.ch.myWindow

theorem Funded.start {ch : Channel} (hw : ch.myWindow = channelWindowSize) (hu : ch.unread = 0)
    (hr : ch.remoteWin.win ≤ p.window) (hp : p.window < 2 ^ 32)
    (hg : p.credit + grants outb ≤ channelWindowSize) (hb : bytes outb = 0) :
    (Endpoint.start ch false [] : Endpoint ι).Funded p [] outb := by
  have ht : ∀ f : Pc → Nat, f .idle = 0 → tally f (fun _ : ι => Pc.idle) = 0 :=
    fun f h => tally_eq_zero fun _ => h
  refine ⟨⟨by simp [Endpoint.start], by simp [Endpoint.start], ?_⟩, ?_, hp, ?_⟩
  · simp [total, Endpoint.start, hw, hu, ht Pc.taken rfl]
  · simpa [held, Endpoint.start, ht Pc.reserved rfl, hb] using hr
  · simpa [credited, Endpoint.start, ht Pc.credited rfl, hw] using hg

theorem Funded.step [DecidableEq ι] {a : Act ι} (h : e.Funded p (a.inbox ++ inb) outb)
    (hs : e.Steps a e' eff) : e'.Funded p inb (outb ++ Effect.sends eff) := by
  have hh := hs.held
  have ha := hs.announced h.accounted
  have hsend := h.sends
  have hrecv := h.receives
  refine ⟨h.accounted.step hs, ?_, h.window, ?_⟩
  · simp only [bytes_append, grants_append] at hsend ⊢
    omega
  · simp only [bytes_append, grants_append] at hrecv ⊢
    omega

theorem Funded.decides (h : e.Funded p inb outb) (hd : e.Decides e' msg)
    (hq : ∀ m ∈ msg, m.grant ≠ 0 → p.credit = 0 ∧ inb = [] ∧ e.loop = [] ∧ outb = [] ∧
      ∀ i, e.gos i = .idle) : e'.Funded p inb (outb ++ msg.toList) := by
  have hsame : e'.Accounted ∧ e'.held = e.held ∧ e'.credited = e.credited ∧ e'.loop = e.loop ∧
      e'.ch.myWindow = e.ch.myWindow ∧ bytes msg.toList = 0 ∧
        ∀ m ∈ msg, m.grant = 0 ∨ m.grant = e.ch.myWindow := by
    have ha := h.accounted
    cases hd with
    | accept hd hs | reject hd hs =>
      exact ⟨⟨ha.control, ha.fits, ha.total_le⟩, rfl, rfl, rfl, rfl, rfl, by simp [grant]⟩
    | late hd hs hi =>
      exact ⟨⟨ha.control, ha.fits, ha.total_le⟩, rfl, rfl, rfl, rfl, rfl, by simp⟩
  obtain ⟨ha, hh, hc, hl, hw, hb, hg⟩ := hsame
  refine ⟨ha, ?_, h.window, ?_⟩
  · have := h.sends
    rw [bytes_append, hb, hh]
    exact this
  have := h.receives
  cases msg with
  | none =>
    simp only [Option.toList_none, append_nil, hl, hc, hw]
    exact this
  | some m =>
    obtain hz | hm := hg m rfl
    · simp only [Option.toList_some, grants_append, grants_cons, grants_nil, hl, hc, hw, hz]
      omega
    by_cases hz : m.grant = 0
    · simp only [Option.toList_some, grants_append, grants_cons, grants_nil, hl, hc, hw, hz]
      omega
    obtain ⟨hp, rfl, hnil, rfl, hidle⟩ := hq m rfl hz
    have ht : e.credited = 0 := tally_eq_zero fun i => by rw [hidle i]; rfl
    simp [hl, hc, hw, hp, hnil, ht, hm]

theorem Funded.say (h : e.Funded p inb outb) (hs : p.say m = some p') :
    e.Funded p' (inb ++ [m]) outb := by
  obtain ⟨ha, hs⟩ := Option.ite_none_right_eq_some.mp hs
  obtain ⟨phase, hp, rfl⟩ := Option.map_eq_some_iff.mp hs
  have hsend := h.sends
  have hrecv := h.receives
  have hw := h.window
  have hgrant : p.window + m.grant < 2 ^ 32 := by
    cases m with
    | windowAdjust n => exact ha
    | openConfirm i w n => exact ha
    | _ => exact hw
  have hpay : m.payloadLength ≤ p.credit := by
    cases m with
    | data x n d =>
      obtain ⟨-, hn, -, hc⟩ := ha
      exact hn ▸ hc
    | _ => exact Nat.zero_le _
  refine ⟨h.accounted, ?_, hgrant, ?_⟩
  · simp only [grants_append, grants_cons, grants_nil]
    omega
  · simp only [bytes_append, bytes_cons, bytes_nil]
    omega

theorem Funded.learn (h : e.Funded p inb outb) :
    e.Funded (p.learn phase i n) inb outb := by
  unfold PeerChan.learn
  split
  · exact ⟨h.accounted, h.sends, h.window, h.receives⟩
  · exact h

theorem Funded.hear (h : e.Funded p inb (m :: outb)) : e.Funded (p.hear m) inb outb := by
  have hsend := h.sends
  have hrecv := h.receives
  have hw := h.window
  have hf : e.Funded { p with window := p.window - m.payloadLength, credit := p.credit + m.grant }
      inb outb := by
    rw [bytes_cons] at hsend
    rw [grants_cons] at hrecv
    exact ⟨h.accounted, by simp only; omega, by simp only; omega, by simp only; omega⟩
  unfold PeerChan.hear
  split
  · exact hf.learn
  · exact hf.learn
  · exact hf

theorem Funded.hearOpen {msg : ChannelOpen}
    (h : e.Funded p inb (.openConfirm msg.peersId msg.peersWindow msg.maxPacketSize :: outb)) :
    e.Funded (p.hearOpen msg) inb outb := by
  have hsend := h.sends
  have hrecv := h.receives
  simp only [bytes_cons, payloadLength, grants_cons, grant] at hsend hrecv
  exact Funded.learn ⟨h.accounted, by simp only; omega, h.window, by simp only; omega⟩

/-- How far the mux and its peer have come with a channel: the packets on their way lead from the
phase `s` to that of the peer; `l` says that the channel is listed. -/
structure Staged (e : Endpoint ι) (p : PeerChan) (inb outb : List ChanMsg) (l : Prop)
    (s : PeerPhase) : Prop where
  said : exec PeerPhase.next s inb = some p.phase
  unknown : s = .unknown → e.loop = [] ∧ (e.ch.direction = .outbound → e.ch.decided = false)
  asked : s = .asked → e.loop = [] ∧ e.ch.direction = .outbound ∧ e.ch.decided = false
  undecided : e.ch.direction = .inbound → e.ch.decided = false → s = .unknown ∧ outb = [] ∧
    p.credit = 0 ∧ e.opened = false ∧ (∀ i, e.gos i = .idle) ∧ e.ch.sentClose = false
  limit : s = .asked ∨ s = .opened → e.ch.maxIncomingPayload = channelMaxPacket
  knows : p.phase = .asked ∨ p.phase = .opened →
    p.id = e.ch.localId ∧ p.maxPacket = channelMaxPacket
  announced : ∀ i w n, .openConfirm i w n ∈ outb → p.phase = .unknown ∧ i = e.ch.localId ∧
    n = channelMaxPacket ∧ e.ch.maxIncomingPayload = channelMaxPacket
  once : ∀ m ∈ outb.tail, m.confirms = false
  lawful : ∀ m ∈ inb, m.Lawful
  ops : ∀ op ∈ e.loop, op.Lawful e.ch.maxIncomingPayload
  respond : .respond ∈ e.loop → e.ch.direction = .outbound ∧ e.ch.decided = false
  first : .respond ∉ e.loop.tail
  leaving : .remove ∈ e.loop → s = .ended
  listed : l ∨ s = .ended
  closed : e.ch.msg.closed = true ∨ .closeMsg ∈ e.loop → .received .close ∈ e.log

end Endpoint

namespace PeerPhase

theorem next_cases {s s' : PeerPhase} (h : s.next m = some s') :
    (s = .asked ∨ s = .opened) ∧ (s' = .opened ∨ s' = .ended) := by
  unfold next at h
  split at h <;> cases h <;> simp

theorem exec_next_of_unknown (h : exec next .unknown ms = some s) : ms = [] ∧ s = .unknown := by
  cases ms with
  | nil => exact ⟨rfl, (Option.some.inj h).symm⟩
  | cons m ms =>
    obtain ⟨s', hs, -⟩ := exec_cons_some h
    cases hs

theorem exec_next_unknown {s : PeerPhase} (h : exec next s ms = some .unknown) :
    s = .unknown ∧ ms = [] := by
  cases ms with
  | nil => exact ⟨Option.some.inj h, rfl⟩
  | cons m ms =>
    have hI : ∀ (s : PeerPhase) m s', s ≠ .unknown → True → s.next m = some s' → s' ≠ .unknown := by
      intro s m s' _ _ hs
      obtain ⟨-, rfl | rfl⟩ := next_cases hs <;> simp
    obtain ⟨s', hs, h⟩ := exec_cons_some h
    refine absurd rfl (run_invariant (I := (· ≠ .unknown)) (G := fun _ _ => True) hI ?_
      (along_of_forall fun _ _ _ => trivial) h)
    exact hI s m s' (by obtain ⟨rfl | rfl, -⟩ := next_cases hs <;> simp) trivial hs

end PeerPhase

theorem Runs.confirms_sends (h : Runs c pc r) :
    ∀ m ∈ Effect.sends r.effect, m.confirms = false := by
  intro m hm
  cases h with
  | requestSent hp hp' h hm' ho =>
    obtain rfl := mem_singleton.mp hm
    cases m <;> first | rfl | cases hm'
  | _ => first | exact mem_singleton.mp hm ▸ rfl | cases hm

namespace Endpoint

variable {ι : Type} {e e' : Endpoint ι} {p p' : PeerChan} {inb outb : List ChanMsg}

theorem Staged.start {ch : Channel} (hd : ch.decided = false) (hm : ch.msg.closed = false)
    (hs : ch.sentClose = false) (hl : l) (hp : p.phase = .unknown) (hc : p.credit = 0)
    (hin : ch.direction = .inbound → outb = [])
    (hout : ∀ m ∈ outb, m = .openConfirm ch.localId ch.myWindow channelMaxPacket ∧
      ch.maxIncomingPayload = channelMaxPacket) (honce : outb.length ≤ 1) :
    (Endpoint.start ch false [] : Endpoint ι).Staged p [] outb l .unknown := by
  refine ⟨?_, fun _ => ⟨rfl, fun _ => hd⟩, nofun, ?_, ?_, ?_, ?_, ?_, nofun, nofun, nofun, nofun,
    nofun, .inl hl, ?_⟩
  · rw [hp]
    rfl
  · exact fun hdir _ => ⟨rfl, hin hdir, hc, rfl, fun _ => rfl, hs⟩
  · rintro (h | h) <;> cases h
  · rw [hp]
    rintro (h | h) <;> cases h
  · intro i w n h
    obtain ⟨he, hlim⟩ := hout _ h
    cases he
    exact ⟨hp, rfl, rfl, hlim⟩
  · intro m hm
    have : outb.tail = [] := by
      rw [← length_eq_zero_iff, length_tail]
      omega
    rw [this] at hm
    cases hm
  · rintro (h | h)
    · rw [Endpoint.start, hm] at h
      cases h
    · cases h

theorem Staged.sends (h : e.Staged p inb outb l s) (ms : List ChanMsg)
    (hms : ∀ m ∈ ms, m.confirms = false) (hq : e.ch.direction = .inbound → e.ch.decided = false →
      ms = []) : e.Staged p inb (outb ++ ms) l s := by
  refine { h with undecided := ?_, announced := ?_, once := ?_ }
  · intro hd hdec
    obtain ⟨hs, rfl, hr⟩ := h.undecided hd hdec
    exact ⟨hs, hq hd hdec, hr⟩
  · intro i w n hm
    obtain hm | hm := mem_append.mp hm
    · exact h.announced i w n hm
    · cases hms _ hm
  intro m hm
  cases outb with
  | nil => exact hms m (mem_of_mem_tail hm)
  | cons x xs =>
    obtain hm | hm := mem_append.mp hm
    · exact h.once m hm
    · exact hms m hm

theorem Staged.frame (h : e.Staged p inb outb l s) (hl : e'.loop = e.loop)
    (hdir : e'.ch.direction = e.ch.direction) (hdec : e'.ch.decided = e.ch.decided)
    (hid : e'.ch.localId = e.ch.localId)
    (hlim : e'.ch.maxIncomingPayload = e.ch.maxIncomingPayload)
    (hmsg : e'.ch.msg.closed = e.ch.msg.closed) (hlog : e.log <+: e'.log)
    (hq : e.ch.direction = .inbound → e.ch.decided = false → e.opened = false →
      (∀ i, e.gos i = .idle) → e'.opened = false ∧ (∀ i, e'.gos i = .idle) ∧
        e'.ch.sentClose = e.ch.sentClose) : e'.Staged p inb outb l s := by
  refine ⟨h.said, ?_, ?_, ?_, ?_, ?_, ?_, h.once, h.lawful, ?_, ?_, ?_, ?_, h.listed, ?_⟩
  · rw [hl, hdir, hdec]
    exact h.unknown
  · rw [hl, hdir, hdec]
    exact h.asked
  · rw [hdir, hdec]
    intro hd hn
    obtain ⟨hs, ho, hc, hop, hg, hsc⟩ := h.undecided hd hn
    obtain ⟨hop', hg', hsc'⟩ := hq hd hn hop hg
    exact ⟨hs, ho, hc, hop', hg', hsc'.trans hsc⟩
  · rw [hlim]
    exact h.limit
  · rw [hid]
    exact h.knows
  · rw [hid, hlim]
    exact h.announced
  · rw [hl, hlim]
    exact h.ops
  · rw [hl, hdir, hdec]
    exact h.respond
  · rw [hl]
    exact h.first
  · rw [hl]
    exact h.leaving
  · rw [hl, hmsg]
    exact fun hc => hlog.subset (h.closed hc)

theorem Steps.of_unaccepted [DecidableEq ι] (h : e.Steps a e' eff) (ha : a.user = true)
    (hd : e.ch.direction = .inbound) (ho : e.opened = false) (hg : ∀ i, e.gos i = .idle) :
    eff = none ∧ e'.opened = false ∧ (∀ i, e'.gos i = .idle) ∧
      e'.ch.sentClose = e.ch.sentClose := by
  cases h with
  | call hop hi hm =>
    cases ho.symm.trans hop
  | @run i r choice hr =>
    rw [hg i] at hr
    exact (Channel.not_runs_idle hr).elim
  | loop hl hp => cases ha
  | deliver hl hm => cases ha
  | opened hm hop hdir | refused hm hop hdir =>
    cases hd.symm.trans hdir
  | takeRequest hr | halt => exact ⟨rfl, ho, hg, rfl⟩

theorem Steps.confirms_sends [DecidableEq ι] (h : e.Steps a e' eff) :
    ∀ m ∈ Effect.sends eff, m.confirms = false := by
  intro m hm
  cases h with
  | run hr => exact hr.confirms_sends m hm
  | loop hl hp =>
    obtain he | he | ⟨-, he⟩ | ⟨f, -, he⟩ := hp.effect_cases <;> rw [he] at hm
    · cases hm
    · exact mem_singleton.mp hm ▸ rfl
    · cases hm
    · cases hm
  | _ => cases hm

theorem Steps.limits_user [DecidableEq ι] (h : e.Steps a e' eff) (ha : a.user = true) :
    e'.ch.decided = e.ch.decided ∧ e'.ch.maxIncomingPayload = e.ch.maxIncomingPayload := by
  cases h with
  | run hr => exact ⟨hr.frame.2.2.1, hr.limits.1⟩
  | loop hl hp => cases ha
  | deliver hl hm => cases ha
  | _ => exact ⟨rfl, rfl⟩

theorem Staged.user [DecidableEq ι] (h : e.Staged p inb outb l s) (hs : e.Steps a e' eff)
    (ha : a.user = true) : e'.Staged p inb (outb ++ Effect.sends eff) l s := by
  obtain ⟨hl, -, hid, hmsg, -, hlog⟩ := hs.frame ha
  obtain ⟨hdec, hlim⟩ := hs.limits_user ha
  have hf : e'.Staged p inb outb l s := by
    refine h.frame hl hs.direction_eq hdec hid hlim hmsg hlog ?_
    exact fun hd _ ho hg => (hs.of_unaccepted ha hd ho hg).2
  refine hf.sends _ hs.confirms_sends ?_
  rw [hs.direction_eq, hdec]
  intro hd hn
  obtain ⟨-, -, -, ho, hg, -⟩ := h.undecided hd hn
  rw [(hs.of_unaccepted ha hd ho hg).1]
  rfl

theorem Staged.decides (h : e.Staged p inb outb l s) (hdir : e.ch.direction = .inbound)
    (hd : e.Decides e' msg) : e'.Staged p inb (outb ++ msg.toList) l s := by
  have hdec : e.ch.decided = false := by cases hd <;> assumption
  obtain ⟨rfl, rfl, hc, ho, hg, hsc⟩ := h.undecided hdir hdec
  obtain ⟨rfl, hph⟩ := PeerPhase.exec_next_of_unknown h.said
  have hloop := (h.unknown rfl).1
  have hout : e.ch.direction ≠ .outbound := by
    rw [hdir]
    simp
  cases hd with
  | accept hd hs =>
    refine { h with
      unknown := fun _ => ⟨hloop, fun ho => absurd ho hout⟩, asked := nofun, undecided := ?_,
      limit := nofun, announced := ?_, once := nofun, ops := ?_, respond := ?_, closed := ?_ }
    · intro _ hn
      cases hn
    · intro i w n hm
      cases mem_singleton.mp hm
      exact ⟨hph, rfl, rfl, rfl⟩
    · simp [hloop]
    · simp [hloop]
    · exact fun hc => mem_append_left _ (h.closed hc)
  | reject hd hs =>
    refine { h with
      unknown := fun _ => ⟨hloop, fun ho => absurd ho hout⟩, asked := nofun,
      undecided := ?_, announced := ?_, once := nofun, respond := ?_, closed := ?_ }
    · intro _ hn
      cases hn
    · intro i w n hm
      cases mem_singleton.mp hm
    · simp [hloop]
    · exact fun hc => mem_append_left _ (h.closed hc)
  | late hd hs hi =>
    cases hsc.symm.trans hs

theorem Staged.perform {op : Op} {ops : List Op} {q : Performed} (h : e.Staged p inb outb l s)
    (hl : e.loop = op :: ops)
    (hp : Performs e.ch choice op q) (hf : ∀ f, q.effect ≠ some (.fault f)) (l' : Prop)
    (hl' : op ≠ .remove → l → l') :
    (e.performed q ops).Staged p inb (outb ++ Effect.sends q.effect) l' s := by
  have hin : e.ch.direction = .inbound → e.ch.decided = false → False := by
    intro hd hn
    have := (h.unknown (h.undecided hd hn).1).1
    cases hl.symm.trans this
  have hrest : ∀ o ∈ q.rest ops, o ∈ ops ∨ ∃ x d, o = .store x d := by
    intro o ho
    obtain ⟨⟨f, he⟩, -⟩ | hr | ⟨-, x, d, hr⟩ := hp.rest_cases ops
    · exact absurd he (hf f)
    · exact .inl (hr ▸ ho)
    · rw [hr, mem_cons] at ho
      exact ho.elim (fun he => .inr ⟨x, d, he⟩) .inl
  have hmem : ∀ {o : Op}, o ∈ ops → o ∈ e.loop := fun ho => hl ▸ .tail _ ho
  have hlim : q.ch.maxIncomingPayload = e.ch.maxIncomingPayload := by
    cases hp with
    | store => rw [Channel.storeData_eq]; rfl
    | _ => rfl
  have hdec : op ≠ .respond → q.ch.decided = e.ch.decided := by
    intro hop
    cases hp with
    | store => rw [Channel.storeData_eq]; rfl
    | respond => exact absurd rfl hop
    | _ => rfl
  have hnr : .respond ∉ ops := by
    have := h.first
    rwa [hl, tail_cons] at this
  have hs : s ≠ .unknown ∧ s ≠ .asked := by
    constructor
    · intro hs
      have := (h.unknown hs).1
      cases hl.symm.trans this
    · intro hs
      have := (h.asked hs).1
      cases hl.symm.trans this
  have hfst : .respond ∉ q.rest ops := by
    intro hr
    obtain hr | ⟨x, d, hr⟩ := hrest _ hr
    · exact hnr hr
    · cases hr
  have hset : (e.performed q ops).Staged p inb outb l' s := by
    refine ⟨h.said, fun hu => absurd hu hs.1, fun hu => absurd hu hs.2, ?_, ?_, ?_, ?_, h.once,
      h.lawful, ?_, fun hr => absurd hr hfst, fun hr => hfst (mem_of_mem_tail hr), ?_, ?_, ?_⟩
    · intro hd hn
      rw [performed, hp.localId_eq.2] at hd
      by_cases hop : op = .respond
      · subst hop
        have := (h.respond (hl ▸ mem_cons_self)).1
        cases hd.symm.trans this
      · exact (hin hd ((hdec hop).symm.trans hn)).elim
    · exact fun hs => hlim.trans (h.limit hs)
    · rw [performed, hp.localId_eq.1]
      exact h.knows
    · rw [performed, hp.localId_eq.1, hlim]
      exact h.announced
    · intro o ho
      rw [performed, hlim]
      obtain ho | ⟨x, d, rfl⟩ := hrest o ho
      · exact h.ops o (hmem ho)
      · trivial
    · intro hr
      obtain hr | ⟨x, d, hr⟩ := hrest _ hr
      · exact h.leaving (hmem hr)
      · cases hr
    · by_cases hop : op = .remove
      · subst hop
        exact .inr (h.leaving (hl ▸ mem_cons_self))
      · exact h.listed.imp (hl' hop) id
    · intro hc
      refine mem_append_left _ (h.closed ?_)
      obtain hc | hc := hc
      · by_cases hop : op = .closeMsg
        · exact .inr (hl ▸ hop ▸ mem_cons_self)
        · exact .inl ((hp.msg_closed hop).symm.trans hc)
      · obtain hc | ⟨x, d, hc⟩ := hrest _ hc
        · exact .inr (hmem hc)
        · cases hc
  refine hset.sends _ ?_ ?_
  · intro m hm
    obtain he | he | ⟨-, he⟩ | ⟨f, -, he⟩ := hp.effect_cases <;> rw [he] at hm
    · cases hm
    · exact mem_singleton.mp hm ▸ rfl
    · cases hm
    · cases hm
  · intro hd hn
    exact absurd (hset.undecided hd hn).1 hs.1

theorem Staged.receive {m : ChanMsg} (h : e.Staged p (m :: inb) outb l s) :
    ∃ s', (e.receive m).Staged p inb outb l s' := by
  obtain ⟨s', hs, hsaid⟩ := exec_cons_some h.said
  have hm : m.Lawful := h.lawful m mem_cons_self
  obtain ⟨hfrom, hto⟩ := PeerPhase.next_cases hs
  have hlim := h.limit hfrom
  have hne : s ≠ .unknown := by
    obtain rfl | rfl := hfrom <;> simp
  have hne' : s' ≠ .unknown ∧ s' ≠ .asked := by
    obtain rfl | rfl := hto <;> simp
  have hresp : .respond ∈ handlePacket m → s = .asked := by
    intro hr
    obtain ⟨i, w, n, rfl⟩ | ⟨f, rfl⟩ := Op.respond_mem_handlePacket hr <;>
      cases s <;> first | rfl | cases hs
  have hrem : .remove ∈ handlePacket m → s' = .ended := by
    intro hr
    obtain rfl | ⟨f, rfl⟩ := Op.remove_mem_handlePacket hr <;> cases s <;> cases hs <;> rfl
  refine ⟨s', hsaid, fun hu => absurd hu hne'.1, fun hu => absurd hu hne'.2, ?_, fun _ => hlim,
    h.knows, h.announced, h.once, fun x hx => h.lawful x (.tail _ hx), ?_, ?_, ?_, hrem, ?_, ?_⟩
  · exact fun hd hn => absurd (h.undecided hd hn).1 hne
  · exact Op.lawful_handlePacket hm fun _ _ _ _ => hlim
  · exact fun hr => (h.asked (hresp hr)).2
  · exact Op.respond_not_mem_tail m
  · refine h.listed.imp id fun he => ?_
    subst he
    obtain h | h := hfrom <;> cases h
  · rintro (hc | hc)
    · exact mem_append_left _ (h.closed (.inl hc))
    · rw [Op.closeMsg_mem_handlePacket hc]
      exact mem_append_right _ mem_cons_self

theorem Staged.say {m : ChanMsg} (h : e.Staged p inb outb l s) (hs : p.say m = some p')
    (hn : ∀ i w n, m = .openConfirm i w n → minPacketLength ≤ n ∧ n ≤ 2 ^ 31) :
    e.Staged p' (inb ++ [m]) outb l s ∧ p.id = e.ch.localId := by
  obtain ⟨ha, hs⟩ := Option.ite_none_right_eq_some.mp hs
  obtain ⟨phase, hp, rfl⟩ := Option.map_eq_some_iff.mp hs
  obtain ⟨hfrom, hto⟩ := PeerPhase.next_cases hp
  obtain ⟨hid, hmax⟩ := h.knows hfrom
  have hne : p.phase ≠ .unknown := by
    obtain h | h := hfrom <;> simp [h]
  refine ⟨⟨?_, h.unknown, h.asked, ?_, h.limit, fun _ => ⟨hid, hmax⟩, ?_, h.once, ?_, h.ops,
    h.respond, h.first, h.leaving, h.listed, h.closed⟩, hid⟩
  · rw [exec_append, h.said]
    exact congrArg (Option.bind · _) hp
  · intro hd hn
    have hu := (h.undecided hd hn).1
    subst hu
    exact absurd (PeerPhase.exec_next_of_unknown h.said).2 hne
  · exact fun i w n hm => absurd (h.announced i w n hm).1 hne
  intro x hx
  obtain hx | hx := mem_append.mp hx
  · exact h.lawful x hx
  obtain rfl := mem_singleton.mp hx
  cases x with
  | data y n d => exact ⟨ha.2.1, hmax ▸ ha.2.2.1⟩
  | openConfirm i w n => exact hn i w n rfl
  | malformed e | other t => cases hph : p.phase <;> rw [hph] at hp <;> cases hp
  | _ => trivial

theorem Staged.heard (h : e.Staged p inb (m :: outb) l s) (hp : p'.phase = p.phase)
    (hi : p'.id = p.id) (hm : p'.maxPacket = p.maxPacket) : e.Staged p' inb outb l s := by
  refine { h with said := ?_, undecided := ?_, knows := ?_, announced := ?_, once := ?_ }
  · rw [hp]
    exact h.said
  · intro hd hn
    cases (h.undecided hd hn).2.1
  · rw [hp, hi, hm]
    exact h.knows
  · rw [hp]
    exact fun i w n ho => h.announced i w n (.tail _ ho)
  · exact fun x hx => h.once x (mem_of_mem_tail hx)

theorem Staged.learn (h : e.Staged p inb outb l s) (ho : ∀ m ∈ outb, m.confirms = false)
    (hd : e.ch.direction = .inbound → e.ch.decided = true) (hu : phase ≠ .unknown)
    (hk : p.phase = .unknown → phase ≠ .ended → i = e.ch.localId ∧ n = channelMaxPacket ∧
      e.ch.maxIncomingPayload = channelMaxPacket)
    (ha : phase = .asked → e.ch.direction = .outbound) :
    ∃ s', e.Staged (p.learn phase i n) inb outb l s' := by
  unfold PeerChan.learn
  split
  · rename_i hp
    have hsaid := h.said
    rw [hp] at hsaid
    obtain ⟨rfl, rfl⟩ := PeerPhase.exec_next_unknown hsaid
    obtain ⟨hloop, hdec⟩ := h.unknown rfl
    have hne : phase = .asked ∨ phase = .opened → phase ≠ .ended := by
      rintro (rfl | rfl) <;> simp
    refine ⟨phase, { h with
      said := rfl, unknown := fun hp => absurd hp hu, asked := ?_, undecided := ?_,
      limit := fun hs => (hk hp (hne hs)).2.2,
      knows := fun hs => ⟨(hk hp (hne hs)).1, (hk hp (hne hs)).2.1⟩,
      announced := ?_, leaving := ?_, listed := .inl (h.listed.resolve_right (by simp)) }⟩
    · exact fun hp => ⟨hloop, ha hp, hdec (ha hp)⟩
    · intro hin hn
      rw [hd hin] at hn
      cases hn
    · intro j w k hm
      cases ho _ hm
    · intro hr
      rw [hloop] at hr
      cases hr
  · exact ⟨s, h⟩

theorem Staged.decided_of_sent (h : e.Staged p inb (m :: outb) l s)
    (hd : e.ch.direction = .inbound) : e.ch.decided = true := by
  cases hn : e.ch.decided with
  | true => rfl
  | false => cases (h.undecided hd hn).2.1

theorem Staged.hear (h : e.Staged p inb (m :: outb) l s) :
    ∃ s', e.Staged (p.hear m) inb outb l s' := by
  have hh : e.Staged { p with window := p.window - m.payloadLength, credit := p.credit + m.grant }
      inb outb l s := h.heard rfl rfl rfl
  unfold PeerChan.hear
  split
  · rename_i i w n
    refine hh.learn h.once h.decided_of_sent (by simp) ?_ (by simp)
    exact fun _ _ => (h.announced i w n mem_cons_self).2
  · refine hh.learn h.once h.decided_of_sent (by simp) ?_ (by simp)
    exact fun _ hn => absurd rfl hn
  · exact ⟨s, hh⟩

theorem Staged.hearOpen {msg : ChannelOpen}
    (h : e.Staged p inb (.openConfirm msg.peersId msg.peersWindow msg.maxPacketSize :: outb) l s)
    (hd : e.ch.direction = .outbound) : ∃ s', e.Staged (p.hearOpen msg) inb outb l s' := by
  have hh : e.Staged { p with credit := p.credit + msg.peersWindow } inb outb l s :=
    h.heard rfl rfl rfl
  refine hh.learn h.once h.decided_of_sent (by simp) ?_ (fun _ => hd)
  exact fun _ _ => (h.announced _ _ _ mem_cons_self).2

variable [Fintype ι]

theorem Staged.no_fault {op : Op} {ops : List Op} {q : Performed} (h : e.Staged p inb outb l s)
    (hf : e.Funded p inb outb) (ht : e.Tame) (hl : e.loop = op :: ops)
    (hq : e.ch.perform .comm op = some q) (f : Fault) : q.effect ≠ some (.fault f) := by
  intro he
  have hlaw := h.ops op (hl ▸ mem_cons_self)
  have hsel : ∀ {α : Type} {x : α} {c : Queue α} {store : Queue α → Channel},
      c.closed = false → e.ch.selectSend .comm c x store = some q → False := by
    intro α x c store hc hs
    simp only [Channel.selectSend, Queue.push, hc, Bool.false_eq_true, if_false] at hs
    by_cases hlen : c.items.length < chanSize
    · rw [if_pos hlen] at hs
      cases hs
      cases he
    · rw [if_neg hlen] at hs
      cases hs
  have hfault : op.Faults e.ch .comm f := by
    obtain hn | hn | ⟨-, hn⟩ | ⟨f', hf', hn⟩ := (Channel.perform_cases hq).effect_cases <;>
      rw [hn] at he <;> cases he
    exact hf'
  cases f with
  | panic text => exact ht.no_panic hl .comm text hfault
  | err x =>
    cases op with
    | fail y => exact hlaw
    | debit y n d =>
      obtain ⟨hn, hmax, hlim⟩ := hlaw
      have hrecv := hf.receives
      rw [hl, weigh_cons] at hrecv
      simp only [debiting] at hrecv
      obtain ⟨-, ⟨hb, -⟩ | ⟨hb, -⟩ | ⟨hb, -⟩⟩ := hfault
      · omega
      · refine hb ?_
        unfold channelMaxPacket at hmax
        rw [Go.u32_of_lt (by omega), hn]
      · omega
    | respond =>
      obtain ⟨hd, hn⟩ := h.respond (hl ▸ mem_cons_self)
      obtain ⟨hb, -⟩ | ⟨hb, -⟩ := hfault
      · cases hd.symm.trans hb
      · cases hn.symm.trans hb
    | confirm i w n =>
      obtain ⟨hmin, hmax⟩ := hlaw
      obtain ⟨hb | hb, -⟩ := hfault <;> omega
    | addWindow n =>
      have hsend := hf.sends
      have hw := hf.window
      simp only [held, hl, weigh_cons, adding] at hsend
      have hb := hfault.1
      rw [Window.add_of_lt (by omega)] at hb
      cases hb
    | pushMsg m => exact hsel (ht.msg _ (hl ▸ mem_cons_self) rfl) hq
    | pushRequest r => exact hsel (ht.requests _ (hl ▸ mem_cons_self) rfl) hq
    | closeMsg | closeRequests => cases hfault.2
    | _ => exact hfault

end Endpoint

end XCryptoSsh
