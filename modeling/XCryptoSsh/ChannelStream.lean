import Mathlib.Data.List.TakeWhile
import XCryptoSsh.ChannelFlow

namespace XCryptoSsh
open List Channel Function Effect Pc
set_option autoImplicit true

open Go (Bytes)

def Event.sentMsg : Event → Option ChanMsg
  | .sent m => some m
  | _ => none

def Event.receivedMsg : Event → Option ChanMsg
  | .received m => some m
  | _ => none

def Event.writtenOn (code : Nat) : Event → Bytes
  | .called (.write c data) => if c = code then data else []
  | _ => []

def Event.returnedOn (code : Nat) : Event → Bytes
  | .returned (.read c data _) => if c = code then data else []
  | _ => []

def sentMsgs (log : List Event) : List ChanMsg := log.filterMap Event.sentMsg
def receivedMsgs (log : List Event) : List ChanMsg := log.filterMap Event.receivedMsg

def written (code : Nat) (log : List Event) : Bytes := log.flatMap (Event.writtenOn code)

def returned (code : Nat) (log : List Event) : Bytes := log.flatMap (Event.returnedOn code)

def ChanMsg.dataOn (code : Nat) : ChanMsg → Bytes
  | .data extended _ payload => if extended.getD 0 = code then payload else []
  | _ => []

def dataOf (code : Nat) (ms : List ChanMsg) : Bytes := ms.flatMap (ChanMsg.dataOn code)

def ChanMsg.ends : ChanMsg → Bool
  | .eof | .close => true
  | _ => false

def beforeEnd (ms : List ChanMsg) : List ChanMsg := ms.takeWhile fun m => !m.ends

section Observations

variable (code : Nat) (log log' : List Event) (ms ms' : List ChanMsg)

@[simp] theorem sentMsgs_append : sentMsgs (log ++ log') = sentMsgs log ++ sentMsgs log' :=
  filterMap_append

@[simp] theorem receivedMsgs_append :
    receivedMsgs (log ++ log') = receivedMsgs log ++ receivedMsgs log' :=
  filterMap_append

@[simp] theorem written_append : written code (log ++ log') = written code log ++
    written code log' :=
  flatMap_append

@[simp] theorem returned_append :
    returned code (log ++ log') = returned code log ++ returned code log' :=
  flatMap_append

@[simp] theorem dataOf_nil : dataOf code [] = [] := rfl

@[simp] theorem dataOf_cons (m : ChanMsg) : dataOf code (m :: ms) = m.dataOn code ++
    dataOf code ms :=
  rfl

@[simp] theorem dataOf_append : dataOf code (ms ++ ms') = dataOf code ms ++ dataOf code ms' :=
  flatMap_append

theorem dataOf_mono (h : ms <+: ms') : dataOf code ms <+: dataOf code ms' := by
  obtain ⟨t, rfl⟩ := h
  rw [dataOf_append]
  exact prefix_append _ _

theorem beforeEnd_append_of_mem {m : ChanMsg} (hm : m ∈ ms) (he : m.ends = true) :
    beforeEnd (ms ++ ms') = beforeEnd ms := by
  unfold beforeEnd
  rw [takeWhile_append, if_neg]
  intro h
  have heq := (List.takeWhile_prefix (fun m : ChanMsg => !m.ends)).eq_of_length h
  have hall := mem_takeWhile_imp (heq.symm ▸ hm : m ∈ ms.takeWhile fun m => !m.ends)
  simp [he] at hall

theorem beforeEnd_append_ends {m : ChanMsg} (he : m.ends = true) :
    beforeEnd (ms ++ [m]) <+: ms := by
  unfold beforeEnd
  rw [takeWhile_append]
  split
  · simp [he]
  · exact takeWhile_prefix _

@[simp] theorem sentMsgs_called (m : Method) : sentMsgs [.called m] = [] := rfl
@[simp] theorem sentMsgs_received (m : ChanMsg) : sentMsgs [.received m] = [] := rfl
@[simp] theorem receivedMsgs_called (m : Method) : receivedMsgs [.called m] = [] := rfl
@[simp] theorem receivedMsgs_received (m : ChanMsg) : receivedMsgs [.received m] = [m] := rfl
@[simp] theorem written_received (m : ChanMsg) : written code [.received m] = [] := rfl
@[simp] theorem returned_called (m : Method) : returned code [.called m] = [] := rfl
@[simp] theorem returned_received (m : ChanMsg) : returned code [.received m] = [] := rfl

@[simp] theorem sentMsgs_effect (eff : Option Effect) :
    sentMsgs (events eff) = sends eff := by
  unfold events sends
  split <;> rfl

@[simp] theorem receivedMsgs_effect (eff : Option Effect) : receivedMsgs (events eff) = [] := by
  unfold events sends
  split <;> rfl

@[simp] theorem written_effect (eff : Option Effect) : written code (events eff) = [] := by
  unfold events sends
  split <;> rfl

@[simp] theorem returned_effect (eff : Option Effect) : returned code (events eff) = [] := by
  unfold events sends
  split <;> rfl

end Observations

section Returns

variable (code : Nat) (o : Option Outcome)

@[simp] theorem sentMsgs_outcome : sentMsgs (Outcome.events o) = [] := by
  cases o <;> rfl

@[simp] theorem receivedMsgs_outcome : receivedMsgs (Outcome.events o) = [] := by
  cases o <;> rfl

@[simp] theorem written_outcome : written code (Outcome.events o) = [] := by
  cases o <;> rfl

end Returns

def Pc.hand (code : Nat) : Pc → Bytes
  | .credit c taken | .adjust c taken => if c = code then taken else []
  | _ => []

def Op.dataOn (code : Nat) : Op → Bytes
  | .debit extended _ payload => if extended.getD 0 = code then payload else []
  | .store extended payload => if extended = code then payload else []
  | _ => []

def opsOn (code : Nat) (ops : List Op) : Bytes := ops.flatMap (Op.dataOn code)

def Op.endsOn (code : Nat) : Op → Bool
  | .eofPending => code == 0
  | .eofExtPending => code == 1
  | _ => false

namespace Channel

def unreadOn (c : Channel) (code : Nat) : Bytes := ((c.stream code).map Buffer.unread).getD []

def closedOn (c : Channel) (code : Nat) : Bool := ((c.stream code).map Buffer.closed).getD false

theorem stream_setStream {c : Channel} (hb : c.stream code = some b) (code' : Nat) :
    (c.setStream b' code).stream code' = if code' = code then some b' else c.stream code' := by
  have hcode : code = 0 ∨ code = 1 := by
    unfold stream at hb
    split at hb
    · exact .inr ‹_›
    · exact .inl (Option.ite_none_right_eq_some.mp hb).1
  unfold stream setStream
  obtain rfl | rfl := hcode
  · by_cases h : code' = 0 <;> simp [h]
  · by_cases h : code' = 1 <;> simp [h]

theorem unreadOn_setStream {c : Channel} (hb : c.stream code = some b) (code' : Nat) :
    (c.setStream b' code).unreadOn code' =
      if code' = code then b'.unread else c.unreadOn code' := by
  rw [unreadOn, stream_setStream hb]
  split <;> rfl

theorem closedOn_setStream {c : Channel} (hb : c.stream code = some b) (h : b'.closed = b.closed)
    (code' : Nat) : (c.setStream b' code).closedOn code' = c.closedOn code' := by
  rw [closedOn, stream_setStream hb]
  split
  · rename_i hc
    rw [closedOn, hc, hb]
    exact h
  · rfl

end Channel

theorem Pc.hand_of_requesting {pc : Pc} (h : pc = .idle ∨ pc.requesting = true) (code : Nat) :
    pc.hand code = [] := by
  obtain rfl | h := h
  · rfl
  · cases pc <;> first | rfl | cases h

theorem Pc.streams_of_requesting {pc : Pc} (h : pc = .idle ∨ pc.requesting = true) :
    pc.reading = none ∧ pc.writing = none := by
  obtain rfl | h := h
  · exact ⟨rfl, rfl⟩
  · cases pc <;> first | exact ⟨rfl, rfl⟩ | cases h

theorem returned_outcome_of_ne (h : ∀ c d e, o ≠ some (.read c d e)) (code : Nat) :
    returned code (Outcome.events o) = [] := by
  cases o with
  | none => rfl
  | some o =>
    cases o with
    | read c d e => exact absurd rfl (h c d e)
    | _ => rfl

theorem Runs.stream (h : Runs c pc r) (code : Nat) :
    pc.hand code ++ c.unreadOn code =
      returned code (Outcome.events r.returned) ++ r.pc.hand code ++ r.ch.unreadOn code := by
  cases h with
  | @readNothing code' b n err b' hb hr =>
    have hu := (Buffer.read_spec hr).1
    have hs : c.unreadOn code' = b.unread := by simp [unreadOn, hb]
    simp only [ret, hand, Outcome.events, unreadOn_setStream hb]
    by_cases hc : code = code'
    · simp [returned, Event.returnedOn, hc, hs, hu]
    · simp [returned, Event.returnedOn, hc]
  | @read code' b n taken err b' hb hr =>
    have hu := (Buffer.read_spec hr).1
    have hs : c.unreadOn code' = b.unread := by simp [unreadOn, hb]
    simp only [goto, hand, Outcome.events, unreadOn_setStream hb]
    by_cases hc : code = code'
    · subst hc
      simp [returned, hs, hu]
    · simp [returned, hc, Ne.symm hc]
  | requestSent hp hp' h hm ho =>
    rw [hand_of_requesting (.inr hp), hand_of_requesting hp', returned_outcome_of_ne ho]
    rfl
  | request hp hp' =>
    simp only [goto]
    rw [hand_of_requesting (.inr hp), hand_of_requesting (.inr hp')]
    rfl
  | requestReturn hp hq =>
    rw [hand_of_requesting (.inr hp)]
    rfl
  | adjustRefused h | adjust h | readRefused he =>
    simp [hand, returned, Outcome.events, Event.returnedOn]
  | credit hs => rfl
  | _ => rfl

theorem Runs.streams (h : Runs c pc r) (code : Nat) :
    (r.pc.reading = some code → pc.reading = some code) ∧
      (r.pc.writing = some code → pc.writing = some code) := by
  cases h with
  | read | credit | write | reserve | send => exact ⟨id, id⟩
  | request hp hp' =>
    obtain ⟨hr, hw⟩ := streams_of_requesting (.inr hp')
    simp [goto, hr, hw]
  | requestSent hp hp' h hm ho =>
    obtain ⟨hr, hw⟩ := streams_of_requesting hp'
    simp [hr, hw]
  | _ => exact ⟨by rintro ⟨⟩, by rintro ⟨⟩⟩

theorem Runs.quiet (h : Runs c pc r) (hp : pc.reading ≠ some code) :
    pc.hand code = [] ∧ r.pc.hand code = [] ∧ returned code (Outcome.events r.returned) = [] := by
  have hand_of : ∀ {q : Pc}, q.reading ≠ some code → q.hand code = [] := by
    intro q hq
    cases q <;> simp_all [hand, reading]
  refine ⟨hand_of hp, hand_of fun hr => hp ((h.streams code).1 hr), ?_⟩
  cases h with
  | requestSent _ _ _ _ ho => exact returned_outcome_of_ne ho code
  | readNothing | readRefused | adjustRefused | adjust =>
    simp_all [returned, Outcome.events, Event.returnedOn, reading]
  | _ => rfl

theorem Runs.closedOn (h : Runs c pc r) (code : Nat) : r.ch.closedOn code = c.closedOn code := by
  cases h with
  | readNothing hb hr | read hb hr =>
    exact closedOn_setStream hb (Buffer.read_spec hr).2.1 code
  | _ => rfl

theorem Runs.eof (h : Runs c pc r) (hr : r.returned = some (.read code d (some .eof))) :
    pc.reading = some code ∧ pc.hand code = [] ∧ c.closedOn code = true ∧ c.unreadOn code = [] := by
  cases h with
  | readRefused he =>
    cases hr
    exact absurd rfl he
  | @readNothing code' b n err b' hb hr' =>
    cases hr
    obtain ⟨hc, hu⟩ := (Buffer.read_spec hr').2.2 nofun
    exact ⟨rfl, rfl, by simp [Channel.closedOn, hb, hc], by simp [Channel.unreadOn, hb, hu]⟩
  | requestSent _ _ _ _ ho => exact absurd hr (ho _ _ _)
  | _ => cases hr

theorem Performs.stream (h : Performs c choice op p) (hf : ∀ f, p.effect ≠ some (.fault f))
    (hs : op.Sound) (hc : code ≤ 1) :
    c.unreadOn code ++ op.dataOn code = p.ch.unreadOn code ++ opsOn code p.more := by
  cases h with
  | fault h => exact absurd rfl (hf _)
  | @debitNothing extended payload =>
    have hp : payload = [] := eq_nil_of_length_eq_zero hs.1.symm
    simp [Op.dataOn, opsOn, hp, Channel.step]
  | debit hm hl hw hs => simp [Op.dataOn, opsOn, Channel.unreadOn, Channel.stream]
  | @store extended payload =>
    have hcode : code = 0 ∨ code = 1 := by omega
    simp only [Channel.step, Op.dataOn, opsOn, Channel.unreadOn, Channel.stream,
      storeData_eq]
    obtain rfl | rfl := hcode
    · by_cases he : extended = 0 <;> simp [he]
    · by_cases he : extended = 1 <;> simp [he]
  | eofPending | eofExtPending =>
    simp only [Channel.step, Op.dataOn, opsOn, Channel.unreadOn, Channel.stream]
    split
    · simp
    · split <;> simp
  | _ => rfl

theorem Performs.closedOn (h : Performs c choice op p) (hp : p.ch.closedOn code = true) :
    c.closedOn code = true ∨ op.endsOn code = true := by
  cases h with
  | store =>
    refine .inl ?_
    simp only [Channel.step, Channel.closedOn, Channel.stream, storeData_eq] at hp ⊢
    by_cases h1 : code = 1
    · by_cases he : ‹Nat› = 1 <;> simp_all [Buffer.write]
    · by_cases h0 : code = 0 <;> by_cases he : ‹Nat› = 0 <;> simp_all [Buffer.write]
  | eofPending =>
    by_cases h0 : code = 0
    · exact .inr (by simp [Op.endsOn, h0])
    · refine .inl ?_
      simpa [Channel.step, Channel.closedOn, Channel.stream, h0] using hp
  | eofExtPending =>
    by_cases h1 : code = 1
    · exact .inr (by simp [Op.endsOn, h1])
    · refine .inl ?_
      simpa [Channel.step, Channel.closedOn, Channel.stream, h1] using hp
  | _ => exact .inl hp

theorem Performs.unreadOn_le (h : Performs c choice op p) (code : Nat) :
    (c.unreadOn code).length ≤ (p.ch.unreadOn code).length := by
  cases h with
  | store =>
    simp only [Channel.step, Channel.unreadOn, Channel.stream, storeData_eq]
    split
    · split <;> simp
    split
    · split <;> simp
    · simp
  | eofPending | eofExtPending =>
    simp only [Channel.step, Channel.unreadOn, Channel.stream]
    split
    · simp
    · split <;> simp
  | _ => exact Nat.le_refl _

/-- Among `ms` is an EOF or CLOSE, and what they carry before it is not longer than `n`. -/
def Ended (code : Nat) (ms : List ChanMsg) (n : Nat) : Prop :=
  (∃ m ∈ ms, m.ends = true) ∧ (dataOf code (beforeEnd ms)).length ≤ n

theorem Ended.append (h : Ended code ms n) (hn : n ≤ n') (ms' : List ChanMsg) :
    Ended code (ms ++ ms') n' := by
  obtain ⟨⟨m, hm, he⟩, hl⟩ := h
  refine ⟨⟨m, mem_append_left ms' hm, he⟩, ?_⟩
  rw [beforeEnd_append_of_mem ms ms' hm he]
  exact Nat.le_trans hl hn

theorem Ended.mono (h : Ended code ms n) (hn : n ≤ n') : Ended code ms n' :=
    ⟨h.1, Nat.le_trans h.2 hn⟩

theorem Op.dataOn_handlePacket (m : ChanMsg) : opsOn code (Op.handlePacket m) = m.dataOn code := by
  cases m with
  | data extended length payload => simp [handlePacket, opsOn, Op.dataOn, ChanMsg.dataOn]
  | _ => rfl

theorem Op.ends_of_handlePacket (h : op ∈ Op.handlePacket m) (he : op.endsOn code = true) :
    m.ends = true := by
  cases m with
  | eof => rfl
  | close => rfl
  | openConfirm i w n | openFailure f =>
    simp only [handlePacket, mem_cons, not_mem_nil, or_false] at h
    obtain rfl | rfl | rfl := h <;> cases he
  | _ =>
    obtain rfl := mem_singleton.mp h
    cases he

theorem prefix_of_prefix_append {x : Event} (h : l ++ [x] <+: log ++ log') (hx : x ∉ log') :
    l ++ [x] <+: log := by
  obtain h' | h' := prefix_or_prefix_of_prefix h (prefix_append log log')
  · exact h'
  obtain ⟨t, ht⟩ := h'
  cases t using reverseRecOn with
  | nil =>
    rw [append_nil] at ht
    exact ht ▸ prefix_rfl
  | append_singleton t y =>
    rw [← append_assoc] at ht
    obtain ⟨rfl, hy⟩ := append_inj' ht rfl
    cases hy
    rw [append_assoc, prefix_append_right_inj] at h
    exact absurd (h.subset (mem_append_right t mem_cons_self)) hx

namespace Endpoint

variable {ι : Type} {e e' : Endpoint ι} {reader : Nat → ι}

/-- What a stream has brought up to the buffer: the bytes returned, those in the hands of the
reader and those unread. -/
def front (e : Endpoint ι) (reader : Nat → ι) (code : Nat) : Bytes :=
  returned code e.log ++ (e.gos (reader code)).hand code ++ e.ch.unreadOn code

def Closing (e : Endpoint ι) (code : Nat) : Prop :=
  e.ch.closedOn code = true ∨ ∃ op ∈ e.loop, op.endsOn code = true

structure Reading (e : Endpoint ι) (reader : Nat → ι) : Prop where
  owned : ∀ i code, (e.gos i).reading = some code → i = reader code
  chain : ∀ code ≤ 1,
    dataOf code (receivedMsgs e.log) = e.front reader code ++ opsOn code e.loop
  closed : ∀ code ≤ 1, e.Closing code →
    Ended code (receivedMsgs e.log) (e.front reader code).length
  eof : ∀ code ≤ 1, ∀ l d, l ++ [.returned (.read code d (some .eof))] <+: e.log →
    Ended code (receivedMsgs e.log) (returned code l).length

theorem Reading.eof_append {log : List Event} (hi : Reading e reader) (hc : code ≤ 1)
    (hx : ∀ d, Event.returned (.read code d (some .eof)) ∉ log) (ms : List ChanMsg)
    (h : l ++ [.returned (.read code d (some .eof))] <+: e.log ++ log) :
    Ended code (receivedMsgs e.log ++ ms) (returned code l).length :=
  (hi.eof code hc l d (prefix_of_prefix_append h (hx d))).append (Nat.le_refl _) ms

theorem Reading.frame {log : List Event} (hi : Reading e reader) (hg : e'.gos = e.gos)
    (hl : e'.log = e.log ++ log) (hx : ∀ o, Event.returned o ∉ log)
    (hchain : ∀ code ≤ 1,
      dataOf code (receivedMsgs e'.log) = e'.front reader code ++ opsOn code e'.loop)
    (hclosed : ∀ code ≤ 1, e'.Closing code →
      Ended code (receivedMsgs e'.log) (e'.front reader code).length) : Reading e' reader := by
  refine ⟨fun i code h => hi.owned i code (hg ▸ h), hchain, hclosed, ?_⟩
  intro code hc l d h
  rw [hl] at h ⊢
  rw [receivedMsgs_append]
  exact hi.eof_append hc (fun d => hx _) _ h

theorem rest_of_no_fault {p : Performed} (hf : ∀ f, p.effect ≠ some (.fault f)) (ops : List Op) :
    p.rest ops = p.more ++ ops := by
  unfold Performed.rest
  split
  · exact absurd ‹_› (hf _)
  · rfl

theorem Reading.performed (hi : Reading e reader) (hl : e.loop = op :: ops)
    (hp : Performs e.ch choice op p) (hf : ∀ f, p.effect ≠ some (.fault f)) (hs : op.Sound) :
    Reading (e.performed p ops) reader := by
  have hrec : receivedMsgs (e.performed p ops).log = receivedMsgs e.log := by
    simp [Endpoint.performed]
  have hret : ∀ code, returned code (e.performed p ops).log = returned code e.log := by
    simp [Endpoint.performed]
  have hrest := rest_of_no_fault hf ops
  refine hi.frame rfl rfl (by simp [events]) ?_ ?_
  · intro code hc
    have hst := hp.stream hf hs hc
    have hch := hi.chain code hc
    rw [hrec, hch, hl]
    simp only [front, hret]
    simp only [Endpoint.performed, hrest, opsOn, flatMap_cons, flatMap_append] at hst ⊢
    rw [append_assoc, append_assoc, ← append_assoc (e.ch.unreadOn code), hst]
    simp only [append_assoc]
  · intro code hc h
    have h' : e.Closing code := by
      obtain h | ⟨o, ho, he⟩ := h
      · obtain h | h := hp.closedOn h
        · exact .inl h
        · exact .inr ⟨op, hl ▸ mem_cons_self, h⟩
      simp only [Endpoint.performed, hrest, mem_append] at ho
      obtain ho | ho := ho
      · obtain ⟨x, d, rfl⟩ := Performs.exists_store hp ho
        cases he
      · exact .inr ⟨o, hl ▸ mem_cons_of_mem op ho, he⟩
    rw [hrec]
    refine (hi.closed code hc h').mono ?_
    have := hp.unreadOn_le code
    simp only [front, hret, length_append]
    simp only [Endpoint.performed]
    omega

theorem Reading.deliver (hi : Reading e reader) (hl : e.loop = []) (m : ChanMsg) :
    Reading { e with loop := Op.handlePacket m, log := e.log ++ [.received m] } reader := by
  have hrec : receivedMsgs (e.log ++ [.received m]) = receivedMsgs e.log ++ [m] := by simp
  have hfront : ∀ code, front { e with loop := Op.handlePacket m, log := e.log ++ [.received m] }
      reader code = e.front reader code := by
    intro code
    simp [front]
  refine hi.frame rfl rfl (by simp) ?_ ?_
  · intro code hc
    rw [hrec, hfront, dataOf_append, hi.chain code hc, hl, Op.dataOn_handlePacket]
    simp [opsOn]
  intro code hc h
  rw [hrec, hfront]
  obtain h | ⟨op, ho, he⟩ := h
  · exact (hi.closed code hc (.inl h)).append (Nat.le_refl _) [m]
  have hm : m.ends = true := Op.ends_of_handlePacket ho he
  refine ⟨⟨m, mem_append_right _ mem_cons_self, hm⟩, ?_⟩
  have hle := (dataOf_mono code _ _ (beforeEnd_append_ends (receivedMsgs e.log) hm)).length_le
  rw [hi.chain code hc, hl] at hle
  simpa [opsOn] using hle

variable [DecidableEq ι]

theorem Reading.front_ran (hi : Reading e reader) (hr : Runs e.ch (e.gos i) r) (code : Nat) :
    (e.ran i r).front reader code = e.front reader code := by
  have hs := hr.stream code
  simp only [front, ran, set, returned_append, returned_effect, append_nil]
  by_cases hi' : reader code = i
  · subst hi'
    rw [update_self, append_assoc, append_assoc, append_assoc,
      ← append_assoc (returned code (Outcome.events r.returned)), ← hs]
  · have hq : (e.gos i).reading ≠ some code := fun h => hi' (hi.owned i code h).symm
    obtain ⟨h₁, h₂, h₃⟩ := hr.quiet hq
    rw [h₁, h₂, h₃, nil_append, nil_append, nil_append] at hs
    rw [update_of_ne hi', h₃, hs, append_nil]

theorem received_ran (e : Endpoint ι) (i : ι) (r : Ran) :
    receivedMsgs (e.ran i r).log = receivedMsgs e.log := by
  simp [ran]

theorem Reading.ran_eof (hi : Reading e reader) (hr : Runs e.ch (e.gos i) r) (hc : code ≤ 1)
    (h : l ++ [.returned (.read code d (some .eof))] <+: (e.ran i r).log) :
    Ended code (receivedMsgs e.log) (returned code l).length := by
  have hev : Event.returned (.read code d (some .eof)) ∉ events r.effect := by
    simp [events]
  by_cases hret : r.returned = some (.read code d (some .eof))
  · -- the log before the return holds all that the stream brought
    obtain ⟨hread, hhand, hclosed, hunread⟩ := hr.eof hret
    have hend := hi.closed code hc (.inl hclosed)
    have hown : i = reader code := hi.owned i code hread
    simp only [ran, hret, Outcome.events, Option.map_some, Option.toList_some,
      prefix_concat_iff] at h
    obtain h | h := h
    · obtain ⟨rfl, -⟩ := append_inj' h rfl
      rw [returned_append, returned_effect, append_nil]
      simpa [front, ← hown, hhand, hunread] using hend
    · exact hi.eof code hc l d (prefix_of_prefix_append h hev)
  · rw [ran, append_assoc] at h
    refine hi.eof code hc l d (prefix_of_prefix_append h ?_)
    simp only [mem_append, not_or]
    refine ⟨hev, ?_⟩
    cases ho : r.returned with
    | none => simp [Outcome.events]
    | some o =>
      simp only [Outcome.events, Option.map_some, Option.toList_some, mem_singleton,
        Event.returned.injEq]
      rintro rfl
      exact hret ho

theorem Reading.ran (hi : Reading e reader) (hr : Runs e.ch (e.gos i) r) :
    Reading (e.ran i r) reader := by
  refine ⟨?_, ?_, ?_, ?_⟩
  · intro j code hj
    by_cases hji : j = i
    · subst hji
      exact hi.owned j code ((hr.streams code).1 (by simpa [Endpoint.ran, set] using hj))
    · exact hi.owned j code (by simpa [Endpoint.ran, set, hji] using hj)
  · intro code hc
    rw [received_ran, hi.front_ran hr]
    exact hi.chain code hc
  · intro code hc h
    have h' : e.Closing code := by
      obtain h | h := h
      · exact .inl ((hr.closedOn code).symm.trans h)
      · exact .inr h
    rw [received_ran, hi.front_ran hr]
    exact hi.closed code hc h'
  · intro code hc l d h
    rw [received_ran]
    exact hi.ran_eof hr hc h

theorem Reading.called (hi : Reading e reader) (hg : e.gos i = .idle)
    (hm : ∀ code n, m = .read code n → i = reader code) :
    Reading { e.set i m.enter with log := e.log ++ [.called m] } reader := by
  have hhand : ∀ code, (update e.gos i m.enter (reader code)).hand code =
      (e.gos (reader code)).hand code := by
    intro code
    by_cases hj : reader code = i
    · rw [hj, update_self, hg]
      cases m <;> rfl
    · rw [update_of_ne hj]
  have hfront : ∀ code, front { e.set i m.enter with log := e.log ++ [.called m] } reader code =
      e.front reader code := by
    intro code
    simp [front, set, hhand]
  have hrec : receivedMsgs (e.log ++ [.called m]) = receivedMsgs e.log := by simp
  refine ⟨?_, ?_, ?_, ?_⟩
  · intro j code hj
    by_cases hji : j = i
    · subst hji
      simp only [set, update_self] at hj
      cases m with
      | read c n =>
        cases hj
        exact hm _ n rfl
      | _ => cases hj
    · exact hi.owned j code (by simpa [set, hji] using hj)
  · intro code hc
    rw [hrec, hfront]
    exact hi.chain code hc
  · intro code hc h
    rw [hrec, hfront]
    exact hi.closed code hc h
  · intro code hc l d h
    rw [hrec]
    exact hi.eof code hc l d (prefix_of_prefix_append h (by simp))

end Endpoint

def Pc.rest (code : Nat) : Pc → Bytes
  | .write c data | .reserve c _ data => if c = code then data else []
  | .send c _ todo data => if c = code then todo ++ data else []
  | _ => []

/-- Nothing more will be sent on the stream: the channel is closed, or a goroutine at `pc` will be
refused a reservation, or refused at once. -/
def Channel.Dead (c : Channel) (pc : Pc) (code : Nat) : Prop :=
  c.sentClose = true ∨
    ((c.idleStop = true ∨ c.remoteWin.closed = true) ∧ ∀ n t d, pc ≠ .send code n t d) ∨
    (c.sentEOF = true ∧ (∀ n t d, pc ≠ .send code n t d) ∧ ∀ n d, pc ≠ .reserve code n d)

structure Channel.Later (c c' : Channel) : Prop where
  sentClose : c.sentClose = true → c'.sentClose = true
  idleStop : c.idleStop = true → c'.idleStop = true
  winClosed : c.remoteWin.closed = true → c'.remoteWin.closed = true
  sentEOF : c.sentEOF = true → c'.sentEOF = true

theorem Channel.Dead.later {c : Channel} (h : c.Dead pc code) (hl : c.Later c') :
    c'.Dead pc code := by
  obtain h | ⟨h | h, hp⟩ | ⟨h, hp⟩ := h
  · exact .inl (hl.sentClose h)
  · exact .inr (.inl ⟨.inl (hl.idleStop h), hp⟩)
  · exact .inr (.inl ⟨.inr (hl.winClosed h), hp⟩)
  · exact .inr (.inr ⟨hl.sentEOF h, hp⟩)

theorem Runs.later (h : Runs c pc r) : c.Later r.ch := by
  cases h with
  | reserve hs hc hw hk => exact ⟨id, id, fun h => absurd (hc.symm.trans h) (by decide), id⟩
  | reserveLost hc hw => exact ⟨id, id, fun _ => rfl, id⟩
  | closeWrite => exact ⟨id, id, id, fun _ => rfl⟩
  | stopIdle => exact ⟨id, fun _ => rfl, id, id⟩
  | sendClose h => exact ⟨fun _ => rfl, id, id, id⟩
  | _ => exact ⟨id, id, id, id⟩

theorem Performs.later (h : Performs c choice op p) : c.Later p.ch := by
  cases h with
  | sendClose h | markSentClose => exact ⟨fun _ => rfl, id, id, id⟩
  | closeWin => exact ⟨id, id, fun _ => rfl, id⟩
  | stopIdle => exact ⟨id, fun _ => rfl, id, id⟩
  | confirm hl hu | addWindow h => exact ⟨id, id, fun h => (Window.closed_add _ _).trans h, id⟩
  | store =>
    simp only [storeData_eq]
    exact ⟨id, id, id, id⟩
  | _ => exact ⟨id, id, id, id⟩

theorem dataOn_dataMsg (c code : Nat) (todo : Bytes) :
    (dataMsg c todo).dataOn code = if c = code then todo else [] := by
  simp only [dataMsg, ChanMsg.dataOn]
  by_cases h : c > 0
  · simp [h]
  · simp [show c = 0 by omega]

theorem dataOn_of_requesting {m : ChanMsg} (h : m.requesting = true) : m.dataOn code = [] := by
  cases m <;> first | rfl | cases h

theorem Pc.rest_of_requesting {pc : Pc} (h : pc = .idle ∨ pc.requesting = true) (code : Nat) :
    pc.rest code = [] := by
  obtain rfl | h := h
  · rfl
  · cases pc <;> first | rfl | cases h

theorem Runs.sends (h : Runs c pc r) (hd : c.decided = true) (code : Nat) :
    pc.rest code = dataOf code (sends r.effect) ++ r.pc.rest code ∨
      r.ch.Dead r.pc code ∧ dataOf code (sends r.effect) = [] := by
  cases h with
  | writeRefused h =>
    obtain h | h := h
    · cases hd.symm.trans h
    · exact .inr ⟨.inr (.inr ⟨h, by simp, by simp⟩), rfl⟩
  | reserveStopped hs => exact .inr ⟨.inr (.inl ⟨.inl hs, by simp⟩), rfl⟩
  | reserveLost hc hw => exact .inr ⟨.inr (.inl ⟨.inr rfl, by simp⟩), rfl⟩
  | sendRefused h => exact .inr ⟨.inl h, rfl⟩
  | @reserve left space code' n data hs hc hw hk =>
    refine .inl ?_
    simp only [goto, rest, take_append_drop]
    rfl
  | sendLast h =>
    refine .inl ?_
    simp [Effect.sends, rest, dataOn_dataMsg]
  | @send data code' n todo h hd' =>
    refine .inl ?_
    by_cases hc : code' = code <;> simp [Effect.sends, rest, dataOn_dataMsg, hc]
  | writeNothing =>
    refine .inl ?_
    simp [Effect.sends, rest]
  | request hp hp' =>
    refine .inl ?_
    simp only [goto]
    rw [rest_of_requesting (.inr hp), rest_of_requesting (.inr hp')]
    rfl
  | requestSent hp hp' h hm ho =>
    refine .inl ?_
    rw [rest_of_requesting (.inr hp), rest_of_requesting hp']
    simp [Effect.sends, dataOn_of_requesting hm]
  | requestReturn hp hq =>
    refine .inl ?_
    rw [rest_of_requesting (.inr hp)]
    rfl
  | _ => exact .inl rfl

theorem Channel.Dead.move {c : Channel} (h : c.Dead pc code) (hl : c.Later c')
    (hs : ∀ n t d, pc' = .send code n t d → ∃ n t d, pc = .send code n t d)
    (hr : ∀ n d, pc' = .reserve code n d →
      (∃ n d, pc = .reserve code n d) ∨ ∃ n t d, pc = .send code n t d) : c'.Dead pc' code := by
  have hs' : (∀ n t d, pc ≠ .send code n t d) → ∀ n t d, pc' ≠ .send code n t d := by
    intro hp n t d he
    obtain ⟨n, t, d, he⟩ := hs n t d he
    exact hp n t d he
  obtain h | ⟨h, hp⟩ | ⟨h, hp, hp'⟩ := h.later hl
  · exact .inl h
  · exact .inr (.inl ⟨h, hs' hp⟩)
  refine .inr (.inr ⟨h, hs' hp, ?_⟩)
  intro n d he
  obtain ⟨n, d, he⟩ | ⟨n, t, d, he⟩ := hr n d he
  · exact hp' n d he
  · exact hp n t d he

theorem Runs.dead (h : Runs c pc r) (hd : c.Dead pc code) :
    r.ch.Dead r.pc code ∧ dataOf code (Effect.sends r.effect) = [] := by
  have hsend : ∀ {n todo data}, c.sentClose = false → c.Dead (.send code n todo data) code →
    False := by
    intro n todo data h hd
    obtain h' | ⟨-, hp⟩ | ⟨-, hp, -⟩ := hd
    · cases h.symm.trans h'
    · exact hp n todo data rfl
    · exact hp n todo data rfl
  have hl := h.later
  cases h with
  | @write data code' he hne =>
    refine ⟨?_, rfl⟩
    obtain h | ⟨h, -⟩ | ⟨h, -⟩ := hd
    · exact .inl h
    · exact .inr (.inl ⟨h, by simp⟩)
    · cases he.symm.trans h
  | @reserve left space code' n data hs hc hw hk =>
    refine ⟨?_, rfl⟩
    obtain h | ⟨h | h, -⟩ | ⟨h, hp, hp'⟩ := hd
    · exact .inl h
    · cases hs.symm.trans h
    · cases hc.symm.trans h
    have hne : code' ≠ code := by
      rintro rfl
      exact hp' n data rfl
    exact .inr (.inr ⟨h, by simp [hne], by simp⟩)
  | @sendLast code' n todo h =>
    have hne : code' ≠ code := by
      rintro rfl
      exact hsend h hd
    refine ⟨hd.move hl (by simp) (by simp), ?_⟩
    simp [Effect.sends, dataOn_dataMsg, hne]
  | @send data code' n todo h hd' =>
    have hne : code' ≠ code := by
      rintro rfl
      exact hsend h hd
    refine ⟨hd.move hl (by simp) (by simp [hne]), ?_⟩
    simp [Effect.sends, dataOn_dataMsg, hne]
  | request hp hp' =>
    refine ⟨hd.move hl ?_ ?_, rfl⟩
    · rintro n t d rfl
      cases hp'
    · rintro n d rfl
      cases hp'
  | requestSent hp hp' h hm ho =>
    refine ⟨hd.move hl ?_ ?_, by simp [Effect.sends, dataOn_of_requesting hm]⟩
    · rintro n t d rfl
      obtain hp' | hp' := hp' <;> cases hp'
    · rintro n d rfl
      obtain hp' | hp' := hp' <;> cases hp'
  | _ => exact ⟨hd.move hl (by simp) (by simp), rfl⟩

theorem Runs.silent (h : Runs c pc r) (hp : pc.writing ≠ some code) :
    dataOf code (Effect.sends r.effect) = [] := by
  cases h with
  | @sendLast code' n todo h | @send data code' n todo h hd =>
    have hne : code' ≠ code := fun he => hp (by rw [writing, he])
    simp [Effect.sends, dataOn_dataMsg, hne]
  | requestSent hp hp' h hm ho => simp [Effect.sends, dataOn_of_requesting hm]
  | _ => rfl

theorem Performs.silent (h : Performs c choice op p) : dataOf code (sends p.effect) = [] := by
  cases h <;> rfl

namespace Endpoint

variable {ι : Type} {e : Endpoint ι} {writer : Nat → ι}

structure Writing (e : Endpoint ι) (writer : Nat → ι) : Prop where
  owned : ∀ i code, (e.gos i).writing = some code → i = writer code
  pre : ∀ code, dataOf code (sentMsgs e.log) <+: written code e.log
  sent : ∀ code,
    written code e.log = dataOf code (sentMsgs e.log) ++ (e.gos (writer code)).rest code ∨
      e.ch.Dead (e.gos (writer code)) code

theorem Writing.frame {e' : Endpoint ι} (hi : Writing e writer) (hg : e'.gos = e.gos)
    (hw : ∀ code, written code e'.log = written code e.log)
    (hs : ∀ code, dataOf code (sentMsgs e'.log) = dataOf code (sentMsgs e.log))
    (hl : e.ch.Later e'.ch) : Writing e' writer := by
  refine ⟨fun i code h => hi.owned i code (hg ▸ h), fun code => ?_, fun code => ?_⟩
  · rw [hw, hs]
    exact hi.pre code
  · rw [hw, hs, hg]
    exact (hi.sent code).imp id fun hd => hd.later hl

variable [DecidableEq ι]

theorem Writing.ran (hi : Writing e writer) (hr : Runs e.ch (e.gos i) r)
    (hd : e.ch.decided = true) : Writing (e.ran i r) writer := by
  have hw : ∀ code, written code (e.ran i r).log = written code e.log := by simp [Endpoint.ran]
  have hs : ∀ code, dataOf code (sentMsgs (e.ran i r).log) =
      dataOf code (sentMsgs e.log) ++ dataOf code (sends r.effect) := by
    simp [Endpoint.ran]
  have hstep : ∀ code, dataOf code (sentMsgs (e.ran i r).log) <+: written code (e.ran i r).log ∧
      (written code (e.ran i r).log =
          dataOf code (sentMsgs (e.ran i r).log) ++ ((e.ran i r).gos (writer code)).rest code ∨
        (e.ran i r).ch.Dead ((e.ran i r).gos (writer code)) code) := by
    intro code
    rw [hw, hs]
    by_cases hi' : writer code = i
    · have hpc : (e.ran i r).gos (writer code) = r.pc := by simp [Endpoint.ran, set, hi']
      have hsent := hi.sent code
      rw [hi'] at hsent
      rw [hpc]
      obtain ha | hdead := hsent
      · obtain h | ⟨hdead, h⟩ := hr.sends hd code
        · rw [ha, h, ← append_assoc]
          exact ⟨prefix_append _ _, .inl rfl⟩
        · rw [h, append_nil]
          exact ⟨hi.pre code, .inr hdead⟩
      · obtain ⟨hdead, h⟩ := hr.dead hdead
        rw [h, append_nil]
        exact ⟨hi.pre code, .inr hdead⟩
    · have hq : (e.gos i).writing ≠ some code := fun h => hi' (hi.owned i code h).symm
      have hpc : (e.ran i r).gos (writer code) = e.gos (writer code) := by
        simp [Endpoint.ran, set, hi']
      rw [hpc, hr.silent hq, append_nil]
      exact ⟨hi.pre code, (hi.sent code).imp id fun hdead => hdead.later hr.later⟩
  refine ⟨?_, fun code => (hstep code).1, fun code => (hstep code).2⟩
  · intro j code hj
    by_cases hji : j = i
    · subst hji
      exact hi.owned j code ((hr.streams code).2 (by simpa [Endpoint.ran, set] using hj))
    · exact hi.owned j code (by simpa [Endpoint.ran, set, hji] using hj)

theorem Writing.called (hi : Writing e writer) (hg : e.gos i = .idle)
    (hm : ∀ code data, m = .write code data → i = writer code) :
    Writing { e.set i m.enter with log := e.log ++ [.called m] } writer := by
  have hs : sentMsgs (e.log ++ [.called m]) = sentMsgs e.log := by simp
  refine ⟨?_, ?_, ?_⟩
  · intro j code hj
    by_cases hji : j = i
    · subst hji
      simp only [set, update_self] at hj
      cases m with
      | write c data =>
        cases hj
        exact hm _ data rfl
      | _ => cases hj
    · exact hi.owned j code (by simpa [set, hji] using hj)
  · intro code
    rw [hs, written_append]
    exact (hi.pre code).trans (prefix_append _ _)
  · intro code
    rw [hs, written_append]
    by_cases hj : writer code = i
    · have hpc : (e.set i m.enter).gos (writer code) = m.enter := by simp [set, hj]
      have hw : written code [Event.called m] = m.enter.rest code := by
        cases m <;> simp [written, Event.writtenOn, Method.enter, rest]
      have hsent := hi.sent code
      rw [hj, hg] at hsent
      simp only [hpc, hw]
      obtain ha | hdead := hsent
      · rw [ha]
        exact .inl (by simp [rest])
      · exact .inr (hdead.move ⟨id, id, id, id⟩ (by cases m <;> simp [Method.enter])
          (by cases m <;> simp [Method.enter]))
    · have hpc : (e.set i m.enter).gos (writer code) = e.gos (writer code) := by simp [set, hj]
      have hw : written code [Event.called m] = [] := by
        cases m with
        | write c data =>
          have hne : c ≠ code := by
            rintro rfl
            exact hj (hm _ data rfl).symm
          simp [written, Event.writtenOn, hne]
        | _ => rfl
      simp only [hpc, hw, append_nil]
      exact hi.sent code

end Endpoint

end XCryptoSsh
