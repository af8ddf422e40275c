import XCryptoSsh.Endpoint

namespace XCryptoSsh
set_option autoImplicit true

open Go (Bytes u32 subU32)
open Machine List Channel Endpoint Function

def Pc.reserved : Pc → Nat
  | .send _ _ todo _ => todo.length
  | _ => 0

def Pc.taken : Pc → Nat
  | .credit _ taken => taken.length
  | _ => 0

def Pc.credited : Pc → Nat
  | .adjust _ taken => taken.length
  | _ => 0

def ChanMsg.grant : ChanMsg → Nat
  | .windowAdjust n => n
  | .openConfirm _ myWindow _ => myWindow
  | _ => 0

def ChanMsg.bytes (ms : List ChanMsg) : Nat := (ms.map ChanMsg.payloadLength).sum
def ChanMsg.grants (ms : List ChanMsg) : Nat := (ms.map ChanMsg.grant).sum

def Op.debiting : Op → Nat
  | .debit _ _ payload => payload.length
  | _ => 0

def Op.storing : Op → Nat
  | .store _ payload => payload.length
  | _ => 0

/-- A grant of the peer that has arrived and is not yet added to its window. -/
def Op.adding : Op → Nat
  | .addWindow n => n
  | .confirm _ myWindow _ => myWindow
  | _ => 0

def Op.control : Op → Bool
  | .debit .. | .store .. => false
  | _ => true

def Op.weigh (f : Op → Nat) (ops : List Op) : Nat := (ops.map f).sum

section Weights

open ChanMsg Op

@[simp] theorem ChanMsg.bytes_nil : bytes [] = 0 := rfl
@[simp] theorem ChanMsg.bytes_cons : bytes (m :: ms) = m.payloadLength + bytes ms := rfl
@[simp] theorem ChanMsg.bytes_append : bytes (ms ++ ns) = bytes ms + bytes ns := by simp [bytes]
@[simp] theorem ChanMsg.grants_nil : grants [] = 0 := rfl
@[simp] theorem ChanMsg.grants_cons : grants (m :: ms) = m.grant + grants ms := rfl
@[simp] theorem ChanMsg.grants_append : grants (ms ++ ns) = grants ms + grants ns := by
  simp [grants]

@[simp] theorem Op.weigh_nil : weigh f [] = 0 := rfl
@[simp] theorem Op.weigh_cons : weigh f (op :: ops) = f op + weigh f ops := rfl
@[simp] theorem Op.weigh_append : weigh f (ops ++ ops') = weigh f ops + weigh f ops' := by
  simp [weigh]

theorem Op.weigh_eq_zero (h : ∀ op ∈ ops, f op = 0) : weigh f ops = 0 := by
  induction ops with
  | nil => rfl
  | cons op ops ih =>
    rw [weigh_cons, h op mem_cons_self, ih fun o ho => h o (mem_cons_of_mem op ho)]

theorem Op.le_weigh (h : op ∈ ops) : f op ≤ weigh f ops := by
  induction h with
  | head ops => exact Nat.le_add_right _ _
  | tail o _ ih => exact Nat.le_trans ih (Nat.le_add_left _ _)

theorem Op.weigh_adding_handlePacket (m : ChanMsg) : weigh adding (handlePacket m) = m.grant := by
  cases m <;> simp [handlePacket, close, adding, grant]

theorem Op.weigh_debiting_handlePacket (m : ChanMsg) :
    weigh debiting (handlePacket m) = m.payloadLength := by
  cases m <;> rfl

theorem Op.weigh_storing_handlePacket (m : ChanMsg) : weigh storing (handlePacket m) = 0 := by
  cases m <;> rfl

theorem Op.control_handlePacket (m : ChanMsg) :
    ∀ op ∈ (handlePacket m).tail, op.control = true := by
  cases m <;> simp [handlePacket, close, control]

theorem Op.storing_of_control {op : Op} (h : op.control = true) : op.storing = 0 := by
  cases op <;> first | rfl | cases h

theorem Performed.weigh_rest_le (p : Performed) (f : Op → Nat) (ops : List Op) :
    weigh f (p.rest ops) ≤ weigh f p.more + weigh f ops := by
  unfold rest
  split
  · exact Nat.zero_le _
  · rw [weigh_append]

end Weights

section OneStep

open Effect ChanMsg Op

theorem Pc.weights_of_requesting {pc : Pc} (h : pc = .idle ∨ pc.requesting = true) :
    pc.reserved = 0 ∧ pc.taken = 0 ∧ pc.credited = 0 := by
  obtain rfl | h := h
  · exact ⟨rfl, rfl, rfl⟩
  · cases pc <;> first | exact ⟨rfl, rfl, rfl⟩ | cases h

theorem ChanMsg.weights_of_requesting {m : ChanMsg} (h : m.requesting = true) :
    m.payloadLength = 0 ∧ m.grant = 0 := by
  cases m <;> first | exact ⟨rfl, rfl⟩ | cases h

theorem Runs.effect (h : Runs c pc r) : r.effect = none ∨ ∃ m, r.effect = some (.send m) := by
  cases h <;> first | exact .inl rfl | exact .inr ⟨_, rfl⟩

theorem Runs.held (h : Runs c pc r) :
    r.ch.remoteWin.win + r.pc.reserved + bytes (sends r.effect) ≤
      c.remoteWin.win + pc.reserved := by
  cases h with
  | @reserve left space code n data hs hc hw hk =>
    have hl := length_take_le space data
    simp only [goto, Pc.reserved, sends, bytes_nil]
    omega
  | @request pc' pc locked hp hp' =>
    have hr := (Pc.weights_of_requesting (.inr hp')).1
    simp only [goto, sends, bytes_nil, hr]
    omega
  | @requestSent pc' o pc m hp hp' h hm ho =>
    have hr := (Pc.weights_of_requesting hp').1
    have hz := (ChanMsg.weights_of_requesting hm).1
    simp only [sends, bytes_nil, bytes_cons, hr, hz]
    omega
  | reserveLost hc hw => simpa [Pc.reserved, sends] using hw
  | _ => simp [Pc.reserved, sends, dataMsg, payloadLength, setStream]

theorem u32_credit (h : w + n < 2 ^ 32) : u32 (w + u32 n) = w + n := by
  rw [Go.u32_of_lt (n := n) (by omega), Go.u32_of_lt h]

theorem Runs.announced (h : Runs c pc r) (hw : c.myWindow + pc.taken < 2 ^ 32) :
    c.myWindow + r.pc.credited + grants (sends r.effect) ≤ r.ch.myWindow + pc.credited := by
  cases h with
  | credit hs =>
    simp only [Pc.taken] at hw
    rw [u32_credit hw] at hs
    simp only [goto, Pc.credited, sends, grants_nil, hs]
    omega
  | @adjust code taken h =>
    have := u32_le taken.length
    simp only [ret, Pc.credited, sends, grants_nil, grants_cons, grant]
    omega
  | @request pc' pc locked hp hp' =>
    have hr := (Pc.weights_of_requesting (.inr hp')).2.2
    simp only [goto, sends, grants_nil, hr]
    omega
  | @requestSent pc' o pc m hp hp' h hm ho =>
    have hr := (Pc.weights_of_requesting hp').2.2
    have hz := (ChanMsg.weights_of_requesting hm).2
    simp only [sends, grants_nil, grants_cons, hr, hz]
    omega
  | _ => simp [Pc.credited, sends, dataMsg, grant, setStream]

theorem Runs.total (h : Runs c pc r) (hw : c.myWindow + pc.taken < 2 ^ 32) :
    r.ch.myWindow + r.ch.unread + r.pc.taken = c.myWindow + c.unread + pc.taken := by
  cases h with
  | credit hs =>
    simp only [Pc.taken] at hw
    rw [u32_credit hw] at hs
    simp only [goto, Pc.taken, unread, hs]
    omega
  | @readNothing code b n err b' hb hr =>
    have hu := unread_setStream hb (Buffer.read_spec hr).1
    simp only [ret, Pc.taken, length_nil] at hu ⊢
    simp only [← hu]
    rfl
  | @read code b n taken err b' hb hr =>
    have hu := unread_setStream hb (Buffer.read_spec hr).1
    simp only [goto, Pc.taken]
    rw [show (c.setStream b' code).myWindow = c.myWindow from rfl]
    omega
  | @request pc' pc locked hp hp' =>
    have hr := (Pc.weights_of_requesting (.inr hp)).2.1
    have hr' := (Pc.weights_of_requesting (.inr hp')).2.1
    simp only [goto, hr, hr', unread]
  | @requestSent pc' o pc m hp hp' h hm ho =>
    have hr := (Pc.weights_of_requesting (.inr hp)).2.1
    have hr' := (Pc.weights_of_requesting hp').2.1
    simp only [hr, hr']
  | requestReturn hp hq =>
    rw [(Pc.weights_of_requesting (.inr hp)).2.1]
    rfl
  | _ => simp [Pc.taken, unread]

theorem Runs.limits (h : Runs c pc r) :
    r.ch.maxIncomingPayload = c.maxIncomingPayload ∧
      r.ch.maxRemotePayload = c.maxRemotePayload ∧
      r.pc.reserved ≤ c.maxRemotePayload := by
  cases h with
  | @reserve left space code n data hs hc hw hk =>
    have hl := length_take_le space data
    have hm := minUint32_le_left c.maxRemotePayload data.length
    refine ⟨rfl, rfl, ?_⟩
    simp only [goto, Pc.reserved]
    omega
  | request hp hp' =>
    refine ⟨rfl, rfl, ?_⟩
    rw [goto, (Pc.weights_of_requesting (.inr hp')).1]
    exact Nat.zero_le _
  | requestSent hp hp' h hm ho =>
    refine ⟨rfl, rfl, ?_⟩
    rw [(Pc.weights_of_requesting hp').1]
    exact Nat.zero_le _
  | _ => exact ⟨rfl, rfl, Nat.zero_le _⟩

theorem Performs.held (h : Performs c choice op p) (ops : List Op) :
    p.ch.remoteWin.win + weigh adding (p.rest ops) + bytes (sends p.effect) ≤
      c.remoteWin.win + weigh adding (op :: ops) := by
  have hr := p.weigh_rest_le adding ops
  rw [weigh_cons]
  cases h with
  | @confirm n i w hl hu =>
    clear hu
    have := c.remoteWin.win_add_le w
    simp only [Channel.step, sends, bytes_nil, weigh_nil, adding] at hr ⊢
    omega
  | @addWindow n h =>
    have := c.remoteWin.win_add_le n
    simp only [Channel.step, sends, bytes_nil, weigh_nil, adding] at hr ⊢
    omega
  | @store extended payload =>
    rw [Channel.storeData_eq]
    simp only [Channel.storeData_eq, Channel.step, sends, bytes_nil, weigh_nil] at hr ⊢
    omega
  | _ =>
    simp only [Channel.step, Channel.fault, sends, bytes_nil, bytes_cons, payloadLength, weigh_nil,
      weigh_cons, adding, Window.close] at hr ⊢
    omega

theorem Performs.announced (h : Performs c choice op p) (hw : c.myWindow < 2 ^ 32) (ops : List Op) :
    c.myWindow + weigh debiting (p.rest ops) + grants (sends p.effect) ≤
      p.ch.myWindow + weigh debiting (op :: ops) := by
  have hr := p.weigh_rest_le debiting ops
  rw [weigh_cons]
  cases h with
  | @debit length left extended payload hm hl hle hs =>
    have hp := u32_le payload.length
    rw [← hl] at hp
    rw [Go.subU32_of_le hle hw] at hs
    simp only [sends, grants_nil, weigh_nil, weigh_cons, debiting] at hr ⊢
    omega
  | @store extended payload =>
    rw [Channel.storeData_eq]
    simp only [Channel.storeData_eq, Channel.step, sends, grants_nil, weigh_nil] at hr ⊢
    omega
  | _ =>
    simp only [Channel.step, Channel.fault, sends, grants_nil, grants_cons, grant, weigh_nil,
      debiting] at hr ⊢
    omega

def Op.discards : Op → Nat
  | .store extended payload => if extended > 1 then payload.length else 0
  | _ => 0

theorem Channel.unread_storeData (c : Channel) (extended : Nat) (payload : Bytes) :
    (c.storeData extended payload).unread + (Op.store extended payload).discards =
      c.unread + payload.length := by
  rw [storeData_eq]
  unfold unread
  by_cases h₀ : extended = 0
  · simp [h₀, discards]
    omega
  by_cases h₁ : extended = 1
  · simp [h₁, discards]
    omega
  · have : extended > 1 := by omega
    simp [h₀, h₁, discards, this]

theorem Performs.total (h : Performs c choice op p) (hw : c.myWindow < 2 ^ 32)
    (hd : op.debiting ≤ maxPacket) (hc : ∀ o ∈ ops, Op.control o = true) :
    p.ch.myWindow + p.ch.unread + weigh storing (p.rest ops) + op.discards =
      c.myWindow + c.unread + weigh storing (op :: ops) := by
  have hz : weigh storing ops = 0 :=
    weigh_eq_zero fun o ho => storing_of_control (hc o ho)
  rw [weigh_cons, hz]
  cases h with
  | fault hf =>
    have : op.storing = 0 ∧ op.discards = 0 := by
      cases op <;> first | exact ⟨rfl, rfl⟩ | cases hf
    simp [Channel.fault, Performed.rest, this]
  | @debit length left extended payload hm hl hle hs =>
    have hp : length = payload.length := by
      rw [hl]
      simp only [debiting, maxPacket] at hd
      exact Go.u32_of_lt (by omega)
    rw [Go.subU32_of_le hle hw] at hs
    simp only [Performed.rest, cons_append, nil_append, weigh_cons, hz, storing, discards,
      unread]
    omega
  | @store extended payload =>
    have hu := c.unread_storeData extended payload
    have hm : (c.storeData extended payload).myWindow = c.myWindow := by rw [Channel.storeData_eq]
    simp only [Channel.step, Performed.rest, nil_append, hz, storing, hm]
    omega
  | _ => simp [Channel.step, Performed.rest, hz, storing, discards, unread]

end OneStep

theorem Method.weights_enter (m : Method) :
    m.enter.reserved = 0 ∧ m.enter.taken = 0 ∧ m.enter.credited = 0 := by
  cases m <;> exact ⟨rfl, rfl, rfl⟩

namespace Endpoint

open Effect ChanMsg Op

variable {ι : Type} [Fintype ι] {e e' : Endpoint ι} {a : Act ι}

def held (e : Endpoint ι) : Nat :=
  e.ch.remoteWin.win + tally Pc.reserved e.gos + weigh adding e.loop

def credited (e : Endpoint ι) : Nat := tally Pc.credited e.gos

def total (e : Endpoint ι) : Nat :=
  e.ch.myWindow + e.ch.unread + tally Pc.taken e.gos + weigh storing e.loop

def Act.inbox : Act ι → List ChanMsg
  | .deliver m => [m]
  | _ => []

def discards (e : Endpoint ι) : Act ι → Nat
  | .loop _ => match e.loop with
    | op :: _ => op.discards
    | [] => 0
  | _ => 0

structure Accounted (e : Endpoint ι) : Prop where
  control : ∀ op ∈ e.loop.tail, op.control = true
  fits : ∀ op ∈ e.loop, op.debiting ≤ maxPacket
  total_le : e.total ≤ channelWindowSize

theorem Accounted.myWindow_add_lt (h : Accounted e) (i : ι) :
    e.ch.myWindow + (e.gos i).taken < 2 ^ 32 := by
  have ht := h.total_le
  have hi := le_tally Pc.taken e.gos i
  simp only [total, channelWindowSize, channelMaxPacket] at ht
  omega

theorem Accounted.myWindow_lt (h : Accounted e) : e.ch.myWindow < 2 ^ 32 := by
  have ht := h.total_le
  simp only [total, channelWindowSize, channelMaxPacket] at ht
  omega

theorem Accounted.closing (h : Accounted e) (hl : e.loop = []) :
    Accounted { e with loop := Op.close } := by
  have ht := h.total_le
  simp only [total, hl] at ht
  exact ⟨by simp [Op.close, Op.control], by simp [Op.close, debiting], ht⟩

theorem held_closing (hl : e.loop = []) : held { e with loop := Op.close } = e.held := by
  simp only [held, hl]
  rfl

variable [DecidableEq ι]

theorem Steps.held (h : Steps e a e' eff) :
    e'.held + bytes (sends eff) ≤ e.held + grants a.inbox := by
  cases h with
  | @call i m ho hi hm =>
    have ht := tally_update Pc.reserved e.gos i m.enter
    rw [hi, m.weights_enter.1] at ht
    simp only [held, set, sends, bytes_nil, Act.inbox, grants_nil, Pc.reserved] at ht ⊢
    omega
  | @run i r choice hr =>
    have hh := hr.held
    have ht := tally_update Pc.reserved e.gos i r.pc
    simp only [held, ran, set, Act.inbox, grants_nil]
    omega
  | @loop op ops p choice hl hp =>
    have hh := hp.held ops
    simp only [held, performed, Act.inbox, grants_nil, hl]
    omega
  | @deliver m hl hm =>
    simp only [held, Act.inbox, grants_cons, grants_nil, sends, bytes_nil, hl, weigh_nil,
      weigh_adding_handlePacket]
    omega
  | opened hm ho hd | refused hm ho hd | takeRequest hr | halt => exact Nat.le_refl _

theorem Steps.announced (h : Steps e a e' eff) (hi : Accounted e) :
    e.ch.myWindow + e'.credited + weigh debiting e'.loop + grants (sends eff) ≤
      e'.ch.myWindow + e.credited + weigh debiting e.loop + bytes a.inbox := by
  cases h with
  | @call i m ho hi hm =>
    have ht := tally_update Pc.credited e.gos i m.enter
    rw [hi, m.weights_enter.2.2] at ht
    simp only [credited, set, sends, bytes_nil, Act.inbox, grants_nil, Pc.credited] at ht ⊢
    omega
  | @run i r choice hr =>
    have hh := hr.announced (hi.myWindow_add_lt i)
    have ht := tally_update Pc.credited e.gos i r.pc
    simp only [credited, ran, set, Act.inbox, bytes_nil]
    omega
  | @loop op ops p choice hl hp =>
    have hh := hp.announced hi.myWindow_lt ops
    simp only [credited, performed, Act.inbox, bytes_nil, hl]
    omega
  | @deliver m hl hm =>
    simp only [credited, Act.inbox, bytes_cons, bytes_nil, sends, grants_nil, hl, weigh_nil,
      weigh_debiting_handlePacket]
    omega
  | opened hm ho hd | refused hm ho hd | takeRequest hr | halt => exact Nat.le_refl _

theorem Steps.total (h : Steps e a e' eff) (hi : Accounted e) :
    e'.total + e.discards a = e.total := by
  cases h with
  | @call i m ho hi hm =>
    have ht := tally_update Pc.taken e.gos i m.enter
    rw [hi, m.weights_enter.2.1] at ht
    simp only [total, set, discards, Pc.taken] at ht ⊢
    omega
  | @run i r choice hr =>
    have hh := hr.total (hi.myWindow_add_lt i)
    have ht := tally_update Pc.taken e.gos i r.pc
    simp only [total, ran, set, discards]
    omega
  | @loop op ops p choice hl hp =>
    have hc : ∀ o ∈ ops, o.control = true := fun o ho => hi.control o (hl ▸ ho)
    have hh := hp.total hi.myWindow_lt (hi.fits op (hl ▸ mem_cons_self)) hc
    simp only [total, performed, discards, hl]
    omega
  | @deliver m hl hm =>
    simp only [total, discards, hl, weigh_nil, weigh_storing_handlePacket]
  | opened hm ho hd => rfl
  | refused hm ho hd => rfl
  | takeRequest hr => rfl
  | halt => rfl

theorem mem_rest {p : Performed} (h : op ∈ p.rest ops) : op ∈ p.more ∨ op ∈ ops := by
  unfold Performed.rest at h
  split at h
  · cases h
  · exact mem_append.mp h

theorem Performs.more_eq (h : Performs c choice op p) :
    p.more = [] ∨ ∃ extended payload, p.more = [.store extended payload] ∧ p.effect = none := by
  cases h <;> first | exact .inl rfl | exact .inr ⟨_, _, rfl, rfl⟩

theorem Performs.exists_store (h : Performs c choice op p) (ho : o ∈ p.more) :
    ∃ extended payload, o = .store extended payload := by
  obtain hm | ⟨x, d, hm, -⟩ := Performs.more_eq h
  · simp [hm] at ho
  · exact ⟨x, d, by simpa [hm] using ho⟩

theorem Accounted.step (hi : Accounted e) (h : Steps e a e' eff) : Accounted e' := by
  have ht := h.total hi
  have hle : e'.total ≤ channelWindowSize := by
    have := hi.total_le
    omega
  cases h with
  | call ho _ hm | run hr | opened hm ho hd | refused hm ho hd | takeRequest hr | halt =>
    exact ⟨hi.control, hi.fits, hle⟩
  | @loop op ops p choice hl hp =>
    have hc : ∀ o ∈ ops, o.control = true := fun o ho => hi.control o (hl ▸ ho)
    have hf : ∀ o ∈ ops, o.debiting ≤ maxPacket := fun o ho =>
      hi.fits o (hl ▸ mem_cons_of_mem op ho)
    refine ⟨?_, ?_, hle⟩
    · intro o ho
      obtain hm | ⟨x, d, hm, he⟩ := Performs.more_eq hp
      · have := mem_of_mem_tail ho
        exact hc o ((mem_rest this).resolve_left (by simp [hm]))
      simp only [performed, Performed.rest, he, hm, cons_append, nil_append,
        tail_cons] at ho
      exact hc o ho
    · intro o ho
      obtain ho | ho := mem_rest ho
      · obtain hm | ⟨x, d, hm, he⟩ := Performs.more_eq hp
        · simp [hm] at ho
        rw [hm, mem_singleton] at ho
        subst ho
        exact Nat.zero_le _
      · exact hf o ho
  | @deliver m hl hm =>
    refine ⟨control_handlePacket m, ?_, hle⟩
    intro o ho
    have := le_weigh (f := debiting) ho
    rw [weigh_debiting_handlePacket] at this
    omega

end Endpoint

def ChanMsg.Sound : ChanMsg → Prop
  | .data _ length payload => length = payload.length ∧ length ≤ channelMaxPacket
  | .openConfirm _ _ n => minPacketLength ≤ n ∧ n ≤ channelMaxPacket
  | .malformed _ => False
  | _ => True

def Op.Sound : Op → Prop
  | .debit _ length payload => length = payload.length ∧ length ≤ channelMaxPacket
  | .confirm _ _ n => minPacketLength ≤ n ∧ n ≤ channelMaxPacket
  | .fail _ => False
  | _ => True

theorem Op.sound_handlePacket {m : ChanMsg} (h : m.Sound) :
    ∀ op ∈ Op.handlePacket m, op.Sound := by
  cases m with
  | data extended length payload =>
    intro op ho
    rw [mem_singleton.mp ho]
    exact h
  | openConfirm i w n =>
    have hn : minPacketLength ≤ n ∧ n ≤ channelMaxPacket := h
    simpa [handlePacket, Op.Sound] using hn
  | malformed e => cases h
  | _ => simp [handlePacket, close, Op.Sound]

theorem Runs.sound (h : Runs c pc r) (hr : pc.reserved ≤ channelMaxPacket) :
    ∀ m ∈ Effect.sends r.effect, m.Sound := by
  have hdata : ∀ code todo, todo.length ≤ channelMaxPacket → (dataMsg code todo).Sound := by
    intro code todo hl
    have hu : u32 todo.length = todo.length := by
      unfold channelMaxPacket at hl
      exact Go.u32_of_lt (by omega)
    exact ⟨hu, Nat.le_trans (u32_le _) hl⟩
  intro m hm
  cases h with
  | sendLast h | send h hd => exact mem_singleton.mp hm ▸ hdata _ _ hr
  | requestSent hp hp' h hm' ho =>
    obtain rfl := mem_singleton.mp hm
    cases m <;> trivial
  | _ => first | exact mem_singleton.mp hm ▸ trivial | cases hm

theorem Performs.sound (h : Performs c choice op p) : ∀ m ∈ Effect.sends p.effect, m.Sound := by
  intro m hm
  cases h <;> first | exact mem_singleton.mp hm ▸ trivial | cases hm

namespace Endpoint

variable {ι : Type} {e e' : Endpoint ι} {a : Act ι}

structure Bounded (e : Endpoint ι) : Prop where
  accepts : e.ch.maxIncomingPayload = channelMaxPacket
  limit : e.ch.maxRemotePayload ≤ channelMaxPacket
  reserved : ∀ i, (e.gos i).reserved ≤ channelMaxPacket
  sound : ∀ op ∈ e.loop, op.Sound

theorem Bounded.closing (hi : Bounded e) : Bounded { e with loop := Op.close } :=
  ⟨hi.accepts, hi.limit, hi.reserved, by simp [Op.close, Op.Sound]⟩

variable [DecidableEq ι]

theorem Bounded.step (hi : Bounded e) (h : Steps e a e' eff) (ha : ∀ m ∈ a.inbox, m.Sound) :
    Bounded e' := by
  cases h with
  | @call i m ho _ hm =>
    refine ⟨hi.accepts, hi.limit, ?_, hi.sound⟩
    intro j
    by_cases hj : j = i
    · subst hj
      simp [set, m.weights_enter.1]
    · simpa [set, hj] using hi.reserved j
  | @run i r choice hr =>
    obtain ⟨h₁, h₂, h₃⟩ := hr.limits
    refine ⟨h₁.trans hi.accepts, h₂ ▸ hi.limit, ?_, hi.sound⟩
    intro j
    by_cases hj : j = i
    · subst hj
      simpa [ran, set] using Nat.le_trans h₃ hi.limit
    · simpa [ran, set, hj] using hi.reserved j
  | @loop op ops p choice hl hp =>
    have hop : op.Sound := hi.sound op (hl ▸ mem_cons_self)
    have hlim : p.ch.maxIncomingPayload = e.ch.maxIncomingPayload ∧
        p.ch.maxRemotePayload ≤ channelMaxPacket := by
      cases hp with
      | confirm hl hu => exact ⟨rfl, hop.2⟩
      | store =>
        simp only [Channel.storeData_eq]
        exact ⟨rfl, hi.limit⟩
      | _ => exact ⟨rfl, hi.limit⟩
    refine ⟨hlim.1.trans hi.accepts, hlim.2, hi.reserved, ?_⟩
    intro o ho
    obtain ho | ho := mem_rest ho
    · obtain hm | ⟨x, d, hm, he⟩ := Performs.more_eq hp
      · simp [hm] at ho
      rw [hm, mem_singleton] at ho
      subst ho
      trivial
    · exact hi.sound o (hl ▸ mem_cons_of_mem op ho)
  | @deliver m hl hm =>
    exact ⟨hi.accepts, hi.limit, hi.reserved, Op.sound_handlePacket (ha m mem_cons_self)⟩
  | opened hm ho hd | refused hm ho hd | takeRequest hr | halt =>
    exact ⟨hi.accepts, hi.limit, hi.reserved, hi.sound⟩

theorem Bounded.sends (hi : Bounded e) (h : Steps e a e' eff) :
    ∀ m ∈ Effect.sends eff, m.Sound := by
  cases h with
  | run hr => exact hr.sound (hi.reserved _)
  | loop hl hp => exact hp.sound
  | _ =>
    intro m hm
    cases hm

end Endpoint

theorem Side.other_other (s : Side) : s.other.other = s := by
  cases s <;> rfl

theorem Side.eq_or_eq_other (s t : Side) : t = s ∨ t = s.other := by
  cases s <;> cases t <;> first | exact .inl rfl | exact .inr rfl

@[simp] theorem Side.other_ne (s : Side) : s.other ≠ s := by
  cases s <;> decide

@[simp] theorem Side.ne_other (s : Side) : s ≠ s.other := by
  cases s <;> decide

theorem Endpoint.Act.inbox_of_ne (a : Endpoint.Act ι) (h : ∀ m, a ≠ .deliver m) : a.inbox = [] := by
  cases a with
  | deliver m => exact absurd rfl (h m)
  | _ => rfl

namespace Pair

open ChanMsg Op

variable {ι : Type} {p p' : Pair ι}

@[simp] theorem ends_absorb (p : Pair ι) (s : Side) (eff : Option Effect) :
    (p.absorb s eff).ends = p.ends := by
  unfold absorb
  split <;> rfl

@[simp] theorem links_absorb (p : Pair ι) (s : Side) (eff : Option Effect) :
    (p.absorb s eff).links = update p.links s (p.links s ++ Effect.sends eff) := by
  unfold absorb
  split <;> simp [Effect.sends, send]

theorem forall_ends {P : Side → Endpoint ι → Prop} (hs : P s e) (h : ∀ t, P t (p.ends t))
    (he : p'.ends = update p.ends s e) (t : Side) : P t (p'.ends t) := by
  rw [he]
  obtain rfl | rfl := s.eq_or_eq_other t
  · simpa using hs
  · simpa using h s.other

variable [Fintype ι]

/-- The window of the peer of `s` covers all that `s` may send, what is on its way, and what the
peer has granted and `s` has not yet added. -/
structure Flow (p : Pair ι) : Prop where
  accounted : ∀ s, (p.ends s).Accounted
  bounded : ∀ s, (p.ends s).Bounded
  sound : ∀ s, ∀ m ∈ p.links s, m.Sound
  covers : ∀ s, (p.ends s).held + bytes (p.links s) + weigh debiting (p.ends s.other).loop +
    (p.ends s.other).credited + grants (p.links s.other) ≤ (p.ends s.other).ch.myWindow

theorem Flow.debit_fits (hp : Flow p) (h : (p.ends s).loop = .debit x n d :: ops) :
    n ≤ (p.ends s).ch.maxIncomingPayload ∧ n = u32 d.length ∧ n ≤ (p.ends s).ch.myWindow := by
  have hc := hp.covers s.other
  rw [Side.other_other, h, weigh_cons] at hc
  simp only [debiting] at hc
  have hop : Op.Sound (.debit x n d) := (hp.bounded s).sound _ (h ▸ mem_cons_self)
  obtain ⟨hn, hm⟩ := hop
  have hu : n = u32 d.length := by
    unfold channelMaxPacket at hm
    rw [Go.u32_of_lt (by omega), hn]
  exact ⟨(hp.bounded s).accepts ▸ hm, hu, by omega⟩

theorem Flow.debit_effect (hp : Flow p) (h : (p.ends s).loop = .debit x n d :: ops) :
    ((p.ends s).ch.debit x n d).effect = none := by
  obtain ⟨hm, hu, hw⟩ := hp.debit_fits h
  unfold Channel.debit
  split
  · rfl
  · rw [if_neg (by omega), if_neg (by simpa using hu), if_neg (by omega)]

theorem Flow.add_fits (hp : Flow p) (h : (p.ends s).loop = op :: ops) :
    ((p.ends s).ch.remoteWin.add op.adding).1 = true := by
  have hc := hp.covers s
  have hw := (hp.accounted s.other).myWindow_lt
  simp only [held, h, weigh_cons] at hc
  rw [Window.add_of_lt (by omega)]

theorem flow_initial (i j : Nat) : Flow (initial i j : Pair ι) := by
  have ht : ∀ f : Pc → Nat, f .idle = 0 → tally f (fun _ : ι => Pc.idle) = 0 :=
    fun f h => tally_eq_zero fun _ => h
  have hw : (Window.add ⟨0, false⟩ channelWindowSize).2.win = channelWindowSize := by decide
  refine ⟨?_, ?_, ?_, ?_⟩
  · intro s
    have hl : ((initial i j : Pair ι).ends s).loop = [] := by cases s <;> rfl
    refine ⟨by simp [hl], by simp [hl], ?_⟩
    cases s <;>
      simp [total, initial, start, openChannel, newChannel,
        handleChannelOpen, accept, unread, ht Pc.taken rfl]
  · intro s
    cases s with
    | opener => exact ⟨rfl, Nat.zero_le _, fun _ => Nat.zero_le _, by simp [initial, start]⟩
    | accepter =>
      exact ⟨rfl, Nat.le_refl _, fun _ => Nat.zero_le _, by simp [initial, start]⟩
  · intro s m hm
    cases s with
    | opener => cases hm
    | accepter =>
      have hs : minPacketLength ≤ channelMaxPacket ∧ channelMaxPacket ≤ channelMaxPacket :=
        by decide
      exact mem_singleton.mp hm ▸ hs
  · intro s
    cases s <;>
      simp [held, credited, initial, start, openChannel,
        openMsg, newChannel, handleChannelOpen, accept, Side.other,
        grant, payloadLength, ht Pc.reserved rfl, ht Pc.credited rfl, hw]

variable [DecidableEq ι]

theorem Flow.stepEnd {a : Endpoint.Act ι} (hp : Flow p) (h : Endpoint.Steps (p.ends s) a e eff)
    (hl : p.links s.other = a.inbox ++ ms) :
    Flow ((setEnd { p with links := update p.links s.other ms } s e).absorb s eff) := by
  have hin : ∀ m ∈ a.inbox, m.Sound := fun m hm =>
    hp.sound s.other m (hl ▸ mem_append_left ms hm)
  have hms : ∀ m ∈ ms, m.Sound := fun m hm =>
    hp.sound s.other m (hl ▸ mem_append_right a.inbox hm)
  refine ⟨forall_ends ((hp.accounted s).step h) hp.accounted (ends_absorb _ _ _),
    forall_ends ((hp.bounded s).step h hin) hp.bounded (ends_absorb _ _ _), ?_, ?_⟩
  · intro t m hm
    obtain rfl | rfl := s.eq_or_eq_other t
    · simp only [setEnd, links_absorb, update_self, ne_eq, Side.ne_other,
        not_false_eq_true, update_of_ne, mem_append] at hm
      exact hm.elim (hp.sound _ m) ((hp.bounded _).sends h m)
    · simp only [setEnd, links_absorb, update_self, ne_eq, Side.other_ne,
        not_false_eq_true, update_of_ne] at hm
      exact hms m hm
  · intro t
    have hs := h.held
    have hr := h.announced (hp.accounted s)
    obtain rfl | rfl := s.eq_or_eq_other t
    · have hc := hp.covers t
      rw [hl] at hc
      simp only [grants_append] at hc
      simp [setEnd]
      omega
    · have hc := hp.covers s.other
      rw [hl, Side.other_other] at hc
      simp only [bytes_append] at hc
      simp [setEnd, Side.other_other]
      omega

theorem Flow.step (hp : Flow p) (h : p.step a = some p') : Flow p' := by
  cases step_cases h with
  | @act a s e eff ha he =>
    have hf := hp.stepEnd he (congrArg (· ++ p.links s.other) (a.inbox_of_ne ha)).symm
    rwa [update_eq_self] at hf
  | deliver hm hf hl he => exact hp.stepEnd he hm
  | @lost s m ms hm hf hl =>
    refine ⟨hp.accounted, hp.bounded, ?_, ?_⟩
    · intro t m' hm'
      obtain rfl | rfl := s.eq_or_eq_other t
      · exact hp.sound t m' (by simpa using hm')
      · exact hp.sound s.other m' (hm ▸ mem_cons_of_mem m (by simpa using hm'))
    intro t
    have hc := hp.covers t
    obtain rfl | rfl := s.eq_or_eq_other t
    · rw [hm, grants_cons] at hc
      simp
      omega
    · rw [hm, bytes_cons, Side.other_other] at hc
      simp [Side.other_other]
      omega
  | @teardown s hf hl hd =>
    refine ⟨forall_ends ((hp.accounted s).closing hl) hp.accounted rfl,
      forall_ends (hp.bounded s).closing hp.bounded rfl, hp.sound, ?_⟩
    intro t
    have hc := hp.covers t
    obtain rfl | rfl := s.eq_or_eq_other t
    · rw [← held_closing hl] at hc
      simpa [setEnd] using hc
    · rw [Side.other_other, hl] at hc
      simpa [setEnd, Side.other_other, credited, Op.close, debiting] using hc

/-- Payload sent by `s` that has not been debited from its peer's window. -/
def inFlight (p : Pair ι) (s : Side) : Nat :=
  bytes (p.links s) + weigh debiting (p.ends s.other).loop

/-- Window granted by `s` that its peer has not yet added. -/
def granted (p : Pair ι) (s : Side) : Nat :=
  grants (p.links s) + weigh adding (p.ends s.other).loop

/-- The window of the receiver is at least what the sender may still send, plus what is in flight,
plus the adjustments in flight. So `handleData` accepts every packet and no window overflows. -/
theorem window_covers_flight (i j : Nat) (as : List (Act ι))
    (h : exec Pair.step (initial i j) as = some p) (s : Side) :
    (p.ends s).ch.remoteWin.win + p.inFlight s + p.granted s.other ≤
        (p.ends s.other).ch.myWindow ∧
      (∀ x n d ops, (p.ends s).loop = .debit x n d :: ops →
        ((p.ends s).ch.debit x n d).effect = none) ∧
      ∀ op ops, (p.ends s).loop = op :: ops →
        ((p.ends s).ch.remoteWin.add op.adding).1 = true := by
  have hp : Flow p := by
    refine run_invariant (G := fun _ _ => True) ?_ (flow_initial i j)
      (along_of_forall fun _ _ _ => trivial) h
    intro q a q' hq _ hs
    exact hq.step hs
  refine ⟨?_, fun x n d ops hl => hp.debit_effect hl, fun op ops hl => hp.add_fits hl⟩
  have hc := hp.covers s
  simp only [held] at hc
  simp only [inFlight, granted, Side.other_other]
  omega

def writingSchedule : List (Act Unit) :=
  [.deliver .opener, .act .opener (.loop .comm), .act .opener (.loop .comm),
    .act .opener (.loop .comm), .act .opener .opened, .act .opener (.call () (.write 1 [1, 2, 3])),
    .act .opener (.run () .comm), .act .opener (.run () .comm), .act .opener (.run () .comm)]

theorem window_covers_flight_writing :
    ∃ p : Pair Unit, exec Pair.step (initial 0 0) writingSchedule = some p ∧
      (p.ends .opener).ch.remoteWin.win = 2097149 ∧ p.inFlight .opener = 3 ∧
      (p.ends .accepter).ch.myWindow = 2097152 ∧
      (p.ends .opener).ch.remoteWin.win + p.inFlight .opener + p.granted .accepter ≤
        (p.ends .accepter).ch.myWindow :=
  ⟨_, rfl, rfl, rfl, rfl, (window_covers_flight 0 0 writingSchedule rfl .opener).1⟩

end Pair

end XCryptoSsh
