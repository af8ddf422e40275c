import XCryptoSsh.ChannelStream

namespace XCryptoSsh
open Machine List Channel Endpoint Function Effect
set_option autoImplicit true

open Go (Bytes)

def ChanMsg.plain : ChanMsg → Bool
  | .data .. | .windowAdjust _ | .eof | .close => true
  | _ => false

def Op.plain : Op → Bool
  | .fail _ | .respond | .confirm .. | .pushMsg _ | .pushRequest _ => false
  | _ => true

def Op.undoes : Op → Bool
  | .remove | .closeMsg | .closeRequests => true
  | _ => false

theorem Op.plain_handlePacket {m : ChanMsg} (h : m.plain = true) :
    ∀ op ∈ Op.handlePacket m, op.plain = true := by
  cases m <;> simp_all [handlePacket, close, plain, ChanMsg.plain]

theorem Op.nodup_handlePacket (m : ChanMsg) : (Op.handlePacket m).Nodup := by
  cases m <;> simp [handlePacket, close]

theorem Op.undoes_handlePacket {m : ChanMsg} (hm : ∀ f, m ≠ .openFailure f)
    (h : op ∈ Op.handlePacket m) (hu : op.undoes = true) : m = .close := by
  cases m with
  | close => rfl
  | openFailure f => exact absurd rfl (hm f)
  | openConfirm i w n =>
    simp only [handlePacket, mem_cons, not_mem_nil, or_false] at h
    obtain rfl | rfl | rfl := h <;> cases hu
  | eof =>
    simp only [handlePacket, mem_cons, not_mem_nil, or_false] at h
    obtain rfl | rfl := h <;> cases hu
  | _ =>
    obtain rfl := mem_singleton.mp h
    cases hu

theorem Runs.plain (h : Runs c pc r) (hp : pc.requesting = false) :
    r.pc.requesting = false ∧ ∀ m ∈ Effect.sends r.effect, m.plain = true := by
  cases h with
  | request hp' _ | requestReturn hp' _ | requestSent hp' _ _ _ _ => cases hp.symm.trans hp'
  | ackRefused => cases hp
  | _ => simp [Effect.sends, Pc.requesting, ChanMsg.plain, dataMsg]

theorem Performs.plain (h : Performs c choice op p) :
    ∀ m ∈ Effect.sends p.effect, m.plain = true := by
  cases h <;> simp [sends, Channel.fault, Channel.step, ChanMsg.plain]

def Closes (c c' : Channel) (eff : Option Effect) : Prop :=
  ∀ m ∈ sends eff, c.sentClose = false ∧ (m = .close → c'.sentClose = true)

theorem Runs.closes (h : Runs c pc r) : Closes c r.ch r.effect := by
  intro m hm
  cases h with
  | sendLast h | send h hd => exact ⟨h, fun he => by simp [Effect.sends, he, dataMsg] at hm⟩
  | adjust h | sendEOF h => exact ⟨h, fun he => by simp [Effect.sends, he] at hm⟩
  | sendClose h => exact ⟨h, fun _ => rfl⟩
  | requestSent hp hp' h hm' ho =>
    refine ⟨h, ?_⟩
    rintro rfl
    simp only [Effect.sends, mem_singleton] at hm
    subst hm
    cases hm'
  | _ => cases hm

theorem Performs.closes (h : Performs c choice op p) : Closes c p.ch p.effect := by
  intro m hm
  cases h with
  | sendClose h => exact ⟨h, fun _ => rfl⟩
  | _ => cases hm

theorem forall_after_append {P : α → Prop} (h : ∀ l l', ms = l ++ x :: l' → ∀ y ∈ l', P y)
    (hy : x ∈ ms → ∀ y ∈ ms', P y) (hn : ms'.length ≤ 1) :
    ∀ l l', ms ++ ms' = l ++ x :: l' → ∀ y ∈ l', P y := by
  intro l l' he
  cases ms' with
  | nil => exact h l l' (by rw [← he, append_nil])
  | cons z zs =>
    obtain rfl := length_eq_zero_iff.mp (Nat.le_zero.mp (Nat.le_of_succ_le_succ hn))
    cases l' using reverseRecOn with
    | nil => exact nofun
    | append_singleton l' w =>
      have he' : ms ++ [z] = (l ++ x :: l') ++ [w] := by simpa using he
      have hms := (append_inj' he' rfl).1
      cases (append_inj' he' rfl).2
      intro y hmem
      obtain hmem | hmem := mem_append.mp hmem
      · exact h l l' hms y hmem
      · exact hy (by simp [hms]) y hmem

theorem Effect.length_sends_le (eff : Option Effect) : (sends eff).length ≤ 1 := by
  unfold sends
  split <;> simp

namespace Endpoint

variable {ι : Type} {e e' : Endpoint ι}

structure Sent (e : Endpoint ι) : Prop where
  closed : .close ∈ sentMsgs e.log → e.ch.sentClose = true
  last : ∀ l l', sentMsgs e.log = l ++ .close :: l' → l' = []

theorem Sent.step (hi : Sent e) (hs : sentMsgs e'.log = sentMsgs e.log ++ sends eff)
    (hc : Closes e.ch e'.ch eff) (hl : e.ch.Later e'.ch) : Sent e' := by
  refine ⟨?_, ?_⟩
  · intro h
    rw [hs, mem_append] at h
    obtain h | h := h
    · exact hl.sentClose (hi.closed h)
    · exact (hc _ h).2 rfl
  · have hlast : ∀ l l', sentMsgs e.log = l ++ .close :: l' → ∀ y ∈ l', False :=
      fun l l' h y hy => not_mem_nil (hi.last l l' h ▸ hy)
    have hopen : .close ∈ sentMsgs e.log → ∀ y ∈ sends eff, False := by
      intro hsent y hy
      cases (hc y hy).1.symm.trans (hi.closed hsent)
    intro l l' h
    rw [hs] at h
    exact eq_nil_iff_forall_not_mem.mpr
      (forall_after_append hlast hopen (length_sends_le eff) l l' h)

structure Tidy (e : Endpoint ι) : Prop where
  nodup : e.loop.Nodup
  msg : .closeMsg ∈ e.loop → e.ch.msg.closed = false
  requests : .closeRequests ∈ e.loop → e.ch.incomingRequests.closed = false
  undoes : ∀ op ∈ e.loop, op.undoes = true → .close ∈ receivedMsgs e.log
  fresh : .close ∉ receivedMsgs e.log →
    e.ch.msg.closed = false ∧ e.ch.incomingRequests.closed = false

theorem Tidy.frame (hi : Tidy e) (hl : e'.loop = e.loop)
    (hm : e'.ch.msg.closed = e.ch.msg.closed)
    (hr : e'.ch.incomingRequests.closed = e.ch.incomingRequests.closed)
    (hlog : receivedMsgs e'.log = receivedMsgs e.log) : Tidy e' := by
  refine ⟨hl ▸ hi.nodup, ?_, ?_, ?_, ?_⟩
  · rw [hl, hm]
    exact hi.msg
  · rw [hl, hr]
    exact hi.requests
  · rw [hl, hlog]
    exact hi.undoes
  · rw [hlog, hm, hr]
    exact hi.fresh

theorem Tidy.deliver (hi : Tidy e) (hc : .close ∉ receivedMsgs e.log)
    (hm : ∀ f, m ≠ .openFailure f) :
    Tidy { e with loop := Op.handlePacket m, log := e.log ++ [.received m] } := by
  have hrec : receivedMsgs (e.log ++ [.received m]) = receivedMsgs e.log ++ [m] := by simp
  refine ⟨Op.nodup_handlePacket m, fun _ => (hi.fresh hc).1, fun _ => (hi.fresh hc).2, ?_,
    fun _ => hi.fresh hc⟩
  intro op ho hu
  rw [hrec, Op.undoes_handlePacket hm ho hu]
  exact mem_append_right _ mem_cons_self

theorem Tidy.performed (hi : Tidy e) (hl : e.loop = op :: ops) (hp : Performs e.ch choice op p)
    (hf : ∀ f, p.effect ≠ some (.fault f)) (hc : ∀ o ∈ e.loop.tail, o.control = true) :
    Tidy (e.performed p ops) := by
  have hrest := rest_of_no_fault hf ops
  have hnodup := hi.nodup
  rw [hl, nodup_cons] at hnodup
  have hmem : ∀ o ∈ ops, o ∈ e.loop := fun o ho => hl ▸ mem_cons_of_mem op ho
  have hloop : ∀ o ∈ p.rest ops, o.undoes = true → o ∈ ops := by
    intro o ho hu
    rw [hrest, mem_append] at ho
    obtain ho | ho := ho
    · obtain ⟨x, d, rfl⟩ := Performs.exists_store hp ho
      cases hu
    · exact ho
  have hrec : receivedMsgs (e.performed p ops).log = receivedMsgs e.log := by
    simp [Endpoint.performed]
  have hmsg : p.ch.msg.closed = e.ch.msg.closed ∨ op = .closeMsg := by
    cases hp with
    | closeMsg h => exact .inr rfl
    | store =>
      rw [storeData_eq]
      exact .inl rfl
    | _ => exact .inl rfl
  have hreq : p.ch.incomingRequests.closed = e.ch.incomingRequests.closed ∨
      op = .closeRequests := by
    cases hp with
    | closeRequests h => exact .inr rfl
    | store =>
      rw [storeData_eq]
      exact .inl rfl
    | _ => exact .inl rfl
  refine ⟨?_, ?_, ?_, ?_, ?_⟩
  · change (p.rest ops).Nodup
    rw [hrest]
    obtain hm | ⟨x, d, hm, -⟩ := Performs.more_eq hp
    · rw [hm]
      exact hnodup.2
    rw [hm, singleton_append, nodup_cons]
    refine ⟨?_, hnodup.2⟩
    intro ho
    rw [hl] at hc
    cases hc _ ho
  · intro h
    have ho := hloop _ h rfl
    obtain h' | rfl := hmsg
    · exact h'.trans (hi.msg (hmem _ ho))
    · exact absurd ho hnodup.1
  · intro h
    have ho := hloop _ h rfl
    obtain h' | rfl := hreq
    · exact h'.trans (hi.requests (hmem _ ho))
    · exact absurd ho hnodup.1
  · intro o ho hu
    rw [hrec]
    exact hi.undoes o (hmem o (hloop o ho hu)) hu
  · intro h
    rw [hrec] at h
    obtain ⟨h₁, h₂⟩ := hi.fresh h
    have hop : op.undoes = true → False := fun hu =>
      h (hi.undoes op (hl ▸ mem_cons_self) hu)
    refine ⟨?_, ?_⟩
    · obtain h' | rfl := hmsg
      · exact h'.trans h₁
      · exact (hop rfl).elim
    · obtain h' | rfl := hreq
      · exact h'.trans h₂
      · exact (hop rfl).elim

structure Untouched (e : Endpoint ι) : Prop where
  direction : e.ch.direction = .outbound
  opened : e.opened = false
  msg : e.ch.msg = .empty
  haltStop : e.ch.haltStop = false
  idle : ∀ i, e.gos i = .idle

inductive Stage (e : Endpoint ι) : Bool → Prop where
  | waiting (hu : e.Untouched) (hl : e.loop = []) (hd : e.ch.decided = false) : Stage e true
  | respond {i w n : Nat} (hu : e.Untouched) (hl : e.loop = Op.handlePacket (.openConfirm i w n))
      (hd : e.ch.decided = false) : Stage e false
  | confirm {i w n : Nat} (hu : e.Untouched) (hl : e.loop = [.confirm i w n, .pushMsg m])
      (hd : e.ch.decided = true) : Stage e false
  | push (hu : e.Untouched) (hl : e.loop = [.pushMsg m]) (hd : e.ch.decided = true) : Stage e false
  | answered (hl : ∀ op ∈ e.loop, op.plain = true) (hd : e.ch.decided = true)
      (hq : ∀ i, (e.gos i).requesting = false) : Stage e false

theorem Performs.faults (h : Performs c choice op p) (hp : p.effect = some (.fault f)) :
    op.Faults c choice f := by
  cases h <;> cases hp
  assumption

theorem Stage.no_fault (hi : Stage e b) (ht : Tidy e) (hs : ∀ op ∈ e.loop, op.Sound)
    (hl : e.loop = op :: ops) (hp : Performs e.ch choice op p) (hc : choice ≠ .muxHalt)
    (hdebit : ∀ x n d, op = .debit x n d →
      n ≤ e.ch.maxIncomingPayload ∧ n = Go.u32 d.length ∧ n ≤ e.ch.myWindow)
    (hadd : (e.ch.remoteWin.add op.adding).1 = true) : ∀ f, p.effect ≠ some (.fault f) := by
  intro f hf
  have h := Performs.faults hp hf
  have hop : op ∈ e.loop := hl ▸ mem_cons_self
  cases hi with
  | waiting hu hl' hd => simp [hl'] at hop
  | respond hu hl' hd =>
    cases hl.symm.trans hl'
    obtain ⟨h, -⟩ | ⟨h, -⟩ := h
    · cases hu.direction.symm.trans h
    · cases hd.symm.trans h
  | @confirm m i w n hu hl' hd =>
    cases hl.symm.trans hl'
    obtain ⟨hmin, hmax⟩ := hs _ hop
    obtain ⟨h, -⟩ := h
    unfold channelMaxPacket at hmax
    omega
  | push hu hl' hd =>
    cases hl.symm.trans hl'
    obtain ⟨h | h, -⟩ | ⟨h, -⟩ := h
    · cases hu.haltStop.symm.trans h
    · exact hc h
    · rw [hu.msg] at h
      cases h
  | answered hl' hd hq =>
    have hplain := hl' op hop
    cases op with
    | debit x n d =>
      obtain ⟨h₁, h₂, h₃⟩ := hdebit x n d rfl
      obtain ⟨-, ⟨h, -⟩ | ⟨h, -⟩ | ⟨h, -⟩⟩ := h
      · omega
      · exact h h₂
      · omega
    | addWindow n => cases hadd.symm.trans h.1
    | closeMsg => cases (ht.msg hop).symm.trans h.1
    | closeRequests => cases (ht.requests hop).symm.trans h.1
    | _ => first | exact h | cases hplain

theorem Runs.ne_idle (h : Runs c pc r) : pc ≠ .idle := by
  rintro rfl
  cases h <;> rename_i hp <;> cases hp

theorem Runs.decided (h : Runs c pc r) : r.ch.decided = c.decided := by
  cases h <;> rfl

theorem Runs.queues (h : Runs c pc r) : r.ch.msg.closed = c.msg.closed ∧
    r.ch.incomingRequests.closed = c.incomingRequests.closed := by
  cases h <;> exact ⟨rfl, rfl⟩

theorem Stage.performed (hi : Stage e b) (hl : e.loop = op :: ops) (hp : Performs e.ch choice op p)
    (hf : ∀ f, p.effect ≠ some (.fault f)) : Stage (e.performed p ops) b := by
  have hrest := rest_of_no_fault hf ops
  cases hi with
  | waiting hu hl' hd => cases hl.symm.trans hl'
  | @respond i w n hu hl' hd =>
    cases hl.symm.trans hl'
    cases hp with
    | fault h => exact absurd rfl (hf _)
    | respond h hd => exact .confirm ⟨hu.direction, hu.opened, hu.msg, hu.haltStop, hu.idle⟩ rfl rfl
  | confirm hu hl' hd =>
    cases hl.symm.trans hl'
    cases hp with
    | fault h => exact absurd rfl (hf _)
    | confirm _ _ => exact .push ⟨hu.direction, hu.opened, hu.msg, hu.haltStop, hu.idle⟩ rfl hd
  | push hu hl' hd =>
    cases hl.symm.trans hl'
    cases hp with
    | fault h => exact absurd rfl (hf _)
    | pushMsg _ _ =>
      refine .answered nofun hd fun i => ?_
      change (e.gos i).requesting = false
      rw [hu.idle i]
      rfl
  | answered hl' hd hq =>
    have hdec : p.ch.decided = true := by
      cases hp with
      | respond _ _ => rfl
      | store =>
        rw [storeData_eq]
        exact hd
      | _ => exact hd
    refine .answered ?_ hdec hq
    intro o ho
    obtain ho | ho := mem_rest ho
    · obtain ⟨x, d, rfl⟩ := Performs.exists_store hp ho
      rfl
    · exact hl' o (hl ▸ mem_cons_of_mem op ho)

theorem Stage.deliver (hi : Stage e b) (hl : e.loop = [])
    (hw : b = true → ∃ i w n, m = .openConfirm i w n) (hp : b = false → m.plain = true) :
    Stage { e with loop := Op.handlePacket m, log := e.log ++ [.received m] } false := by
  cases hi with
  | waiting hu _ hd =>
    obtain ⟨i, w, n, rfl⟩ := hw rfl
    exact .respond ⟨hu.direction, hu.opened, hu.msg, hu.haltStop, hu.idle⟩ rfl hd
  | respond hu hl' hd | confirm hu hl' hd | push hu hl' hd => cases hl.symm.trans hl'
  | answered hl' hd hq => exact .answered (Op.plain_handlePacket (hp rfl)) hd hq

theorem Stage.requests (hi : Stage e b) (q : Queue Request) :
    Stage { e with ch.incomingRequests := q } b := by
  have keep : e.Untouched → Untouched { e with ch.incomingRequests := q } :=
    fun hu => ⟨hu.direction, hu.opened, hu.msg, hu.haltStop, hu.idle⟩
  cases hi with
  | waiting hu hl hd => exact .waiting (keep hu) hl hd
  | respond hu hl hd => exact .respond (keep hu) hl hd
  | confirm hu hl hd => exact .confirm (keep hu) hl hd
  | push hu hl hd => exact .push (keep hu) hl hd
  | answered hl hd hq => exact .answered hl hd hq

theorem Stage.answered_of (hi : Stage e b) (h : ¬ e.Untouched) :
    b = false ∧ (∀ op ∈ e.loop, op.plain = true) ∧ e.ch.decided = true ∧
      ∀ i, (e.gos i).requesting = false := by
  cases hi with
  | answered hl hd hq => exact ⟨rfl, hl, hd, hq⟩
  | _ => exact absurd ‹_› h

variable [DecidableEq ι]

theorem Stage.ran (hi : Stage e b) (hr : Runs e.ch (e.gos i) r) :
    Stage (e.ran i r) b ∧ e.ch.decided = true ∧ ∀ m ∈ sends r.effect, m.plain = true := by
  obtain ⟨rfl, hl, hd, hq⟩ := hi.answered_of fun hu => Runs.ne_idle hr (hu.idle i)
  obtain ⟨hreq, hplain⟩ := hr.plain (hq i)
  refine ⟨.answered hl ((Runs.decided hr).trans hd) ?_, hd, hplain⟩
  intro j
  by_cases hj : j = i
  · subst hj
    simpa [Endpoint.ran, set] using hreq
  · simpa [Endpoint.ran, set, hj] using hq j

theorem Stage.called (hi : Stage e b) (ho : e.opened = true) (hm : m.enter.requesting = false) :
    Stage { e.set i m.enter with log := e.log ++ [.called m] } b := by
  obtain ⟨rfl, hl, hd, hq⟩ := hi.answered_of fun hu => by cases ho.symm.trans hu.opened
  refine .answered hl hd ?_
  intro j
  by_cases hj : j = i
  · subst hj
    simpa [set] using hm
  · simpa [set, hj] using hq j

/-- Calls of the methods that move data, by the owner of their stream; no Halter is stopped. -/
def Act.Allowed (reader writer : Nat → ι) : Act ι → Prop
  | .call i (.read code _) => i = reader code
  | .call i (.write code _) => i = writer code
  | .call _ (.sendRequest ..) | .call _ (.ackRequest _) | .loop .muxHalt | .halt => False
  | _ => True

variable {reader writer : Nat → ι} {a : Act ι}

theorem Steps.sentMsgs (h : Steps e a e' eff) :
    sentMsgs e'.log = XCryptoSsh.sentMsgs e.log ++ sends eff := by
  cases h <;> simp [ran, performed, sends]

theorem Steps.receivedMsgs (h : Steps e a e' eff) :
    receivedMsgs e'.log = XCryptoSsh.receivedMsgs e.log ++ a.inbox := by
  cases h <;> simp [ran, performed, Act.inbox]

theorem Steps.closes (h : Steps e a e' eff) : Closes e.ch e'.ch eff := by
  cases h with
  | run hr => exact hr.closes
  | loop hl hp => exact hp.closes
  | _ =>
    intro m hm
    cases hm

theorem Steps.later (h : Steps e a e' eff) : e.ch.Later e'.ch := by
  cases h with
  | run hr => exact hr.later
  | loop hl hp => exact hp.later
  | refused hm ho hd => exact ⟨id, fun _ => rfl, id, id⟩
  | _ => exact ⟨id, id, id, id⟩

theorem Reading.step (hi : Reading e reader) (h : Steps e a e' eff)
    (hf : ∀ f, eff ≠ some (.fault f)) (hs : ∀ op ∈ e.loop, op.Sound)
    (ha : a.Allowed reader writer) : Reading e' reader := by
  cases h with
  | @call i m ho hg hm =>
    refine hi.called hg ?_
    rintro code n rfl
    exact ha
  | run hr => exact hi.ran hr
  | @loop op ops p choice hl hp => exact hi.performed hl hp hf (hs op (hl ▸ mem_cons_self))
  | deliver hl hm => exact hi.deliver hl _
  | opened hm ho hd | refused hm ho hd | takeRequest hr | halt =>
    exact ⟨hi.owned, hi.chain, hi.closed, hi.eof⟩

theorem Writing.step (hi : Writing e writer) (h : Steps e a e' eff) (hst : Stage e b)
    (ha : a.Allowed reader writer) : Writing e' writer := by
  cases h with
  | @call i m ho hg hm =>
    refine hi.called hg ?_
    rintro code n rfl
    exact ha
  | run hr => exact hi.ran hr (hst.ran hr).2.1
  | loop hl hp =>
    exact hi.frame rfl (by simp [performed]) (by simp [performed, hp.silent]) hp.later
  | deliver hl hm => exact hi.frame rfl (by simp) (by simp) ⟨id, id, id, id⟩
  | opened hm ho hd | takeRequest hr | halt => exact ⟨hi.owned, hi.pre, hi.sent⟩
  | refused hm ho hd =>
    exact hi.frame rfl (fun _ => rfl) (fun _ => rfl) ⟨id, fun _ => rfl, id, id⟩

theorem Tidy.step (hi : Tidy e) (h : Steps e a e' eff) (hf : ∀ f, eff ≠ some (.fault f))
    (hc : ∀ op ∈ e.loop.tail, op.control = true)
    (hd : ∀ m, a = .deliver m → .close ∉ XCryptoSsh.receivedMsgs e.log ∧ ∀ f, m ≠ .openFailure f) :
    Tidy e' := by
  cases h with
  | call ho hg hm => exact hi.frame rfl rfl rfl (by simp)
  | run hr => exact hi.frame rfl (Runs.queues hr).1 (Runs.queues hr).2 (received_ran _ _ _)
  | loop hl hp => exact hi.performed hl hp hf hc
  | deliver hl hm => exact hi.deliver (hd _ rfl).1 (hd _ rfl).2
  | opened hm ho hd | refused hm ho hd | takeRequest hr | halt => exact hi.frame rfl rfl rfl rfl

theorem Stage.step (hi : Stage e b) (h : Steps e a e' eff) (hf : ∀ f, eff ≠ some (.fault f))
    (ha : a.Allowed reader writer)
    (hd : ∀ m, a = .deliver m → (b = true → ∃ i w n, m = .openConfirm i w n) ∧
      (b = false → m.plain = true)) : Stage e' (b && a.inbox.isEmpty) := by
  have keep : ∀ {e : Endpoint ι}, Stage e b → Stage e (b && true) := fun h =>
    (Bool.and_true b).symm ▸ h
  cases h with
  | @call i m ho hg hm =>
    refine keep (hi.called ho ?_)
    cases m <;> first | rfl | exact ha.elim
  | run hr => exact keep (hi.ran hr).1
  | loop hl hp => exact keep (hi.performed hl hp hf)
  | deliver hl hm =>
    rw [Act.inbox, isEmpty_cons, Bool.and_false]
    exact hi.deliver hl (hd _ rfl).1 (hd _ rfl).2
  | opened hm ho _ | refused hm ho _ =>
    obtain ⟨rfl, hl, hdec, hq⟩ := hi.answered_of fun hu => by simp [hu.msg, Queue.empty] at hm
    exact keep (.answered hl hdec hq)
  | takeRequest hr => exact keep (hi.requests _)
  | halt => exact ha.elim

theorem Stage.plain (hi : Stage e b) (h : Steps e a e' eff) :
    ∀ m ∈ sends eff, m.plain = true := by
  cases h with
  | run hr => exact (hi.ran hr).2.2
  | loop hl hp => exact hp.plain
  | _ =>
    intro m hm
    cases hm

end Endpoint

namespace Pair

variable {ι : Type} {p p' : Pair ι} {reader writer : Side → Nat → ι}

/-- The users of a pair call `Write`, `Read`, `CloseWrite` and `Close`, and each stream has one
goroutine that writes and one that reads. -/
def Allowed (reader writer : Side → Nat → ι) : Act ι → Prop
  | .act s a => a.Allowed (reader s) (writer s)
  | _ => True

def Greets : Side → List ChanMsg → Prop
  | .opener, ms => ∀ m ∈ ms, m.plain = true
  | .accepter, ms => ∃ i w n ms', ms = .openConfirm i w n :: ms' ∧ ∀ m ∈ ms', m.plain = true

theorem Greets.append (h : Greets s ms) (hms : ∀ m ∈ ms', m.plain = true) :
    Greets s (ms ++ ms') := by
  cases s with
  | opener =>
    intro m hm
    obtain hm | hm := mem_append.mp hm
    · exact h m hm
    · exact hms m hm
  | accepter =>
    obtain ⟨i, w, n, l, rfl, hl⟩ := h
    refine ⟨i, w, n, l ++ ms', rfl, ?_⟩
    intro m hm
    obtain hm | hm := mem_append.mp hm
    · exact hl m hm
    · exact hms m hm

theorem Greets.next {m : ChanMsg} (h : Greets s (ms ++ m :: ms')) :
    ((s == .accepter && ms.isEmpty) = true → ∃ i w n, m = .openConfirm i w n) ∧
      ((s == .accepter && ms.isEmpty) = false → m.plain = true) := by
  cases s with
  | opener =>
    refine ⟨nofun, fun _ => ?_⟩
    exact h m (mem_append_right ms mem_cons_self)
  | accepter =>
    obtain ⟨i, w, n, l, hl, hplain⟩ := h
    cases ms with
    | nil =>
      cases hl
      exact ⟨fun _ => ⟨i, w, n, rfl⟩, nofun⟩
    | cons x xs =>
      cases hl
      exact ⟨nofun, fun _ =>
        hplain m (mem_append_right xs mem_cons_self)⟩

theorem faults_absorb {p : Pair ι} (hf : ∀ f, eff ≠ some (.fault f)) (s : Side) :
    (p.absorb s eff).faults = p.faults := by
  unfold absorb
  split <;> first | rfl | exact absurd rfl (hf _)

theorem listed_absorb {p : Pair ι} (h : (p.absorb s eff).listed t = false) :
    p.listed t = false ∨ t = s ∧ ∃ id, eff = some (.remove id) := by
  unfold absorb at h
  split at h
  · exact .inl h
  · exact .inl h
  · by_cases ht : t = s
    · exact .inr ⟨ht, _, rfl⟩
    · exact .inl (by simpa [ht] using h)
  · exact .inl h

variable [Fintype ι]

structure Streams (p : Pair ι) (reader writer : Side → Nat → ι) : Prop where
  flow : p.Flow
  healthy : ∀ s, p.faults s = none
  reading : ∀ s, (p.ends s).Reading (reader s)
  writing : ∀ s, (p.ends s).Writing (writer s)
  sent : ∀ s, (p.ends s).Sent
  tidy : ∀ s, (p.ends s).Tidy
  stage : ∀ s, (p.ends s).Stage (s == .opener && (receivedMsgs (p.ends s).log).isEmpty)
  fifo : ∀ s, sentMsgs (p.ends s).log = receivedMsgs (p.ends s.other).log ++ p.links s
  greets : ∀ s, Greets s (sentMsgs (p.ends s).log)
  listed : ∀ s, p.listed s = false → .close ∈ receivedMsgs (p.ends s).log

theorem Streams.next (hi : p.Streams reader writer) (hm : p.links s.other = m :: ms) :
    .close ∉ receivedMsgs (p.ends s).log ∧
      ((s == .opener && (receivedMsgs (p.ends s).log).isEmpty) = true →
        ∃ i w n, m = .openConfirm i w n) ∧
      ((s == .opener && (receivedMsgs (p.ends s).log).isEmpty) = false → m.plain = true) := by
  have hf := hi.fifo s.other
  rw [hm, Side.other_other] at hf
  refine ⟨?_, ?_⟩
  · intro hc
    obtain ⟨l, l', hl⟩ := append_of_mem hc
    rw [hl, append_assoc, cons_append] at hf
    have := (hi.sent s.other).last l (l' ++ m :: ms) hf
    simp at this
  · have hg := hi.greets s.other
    rw [hf] at hg
    have hs : (s.other == .accepter) = (s == .opener) := by cases s <;> rfl
    rw [← hs]
    exact hg.next

theorem streams_initial (reader writer : Side → Nat → ι) (i j : Nat) :
    (initial i j : Pair ι).Streams reader writer := by
  have hgos : ∀ s k, ((initial i j : Pair ι).ends s).gos k = .idle := by
    intro s k
    cases s <;> rfl
  have hloop : ∀ s, ((initial i j : Pair ι).ends s).loop = [] := by
    intro s
    cases s <;> rfl
  have hrec : ∀ s, receivedMsgs ((initial i j : Pair ι).ends s).log = [] := by
    intro s
    cases s <;> rfl
  have hret : ∀ s code, returned code ((initial i j : Pair ι).ends s).log = [] := by
    intro s code
    cases s <;> rfl
  have hunread : ∀ s code, ((initial i j : Pair ι).ends s).ch.unreadOn code = [] := by
    intro s code
    cases s <;>
    · simp only [unreadOn, stream]
      split
      · rfl
      · split <;> rfl
  have hclosed : ∀ s code, ((initial i j : Pair ι).ends s).ch.closedOn code = false := by
    intro s code
    cases s <;>
    · simp only [closedOn, stream]
      split
      · rfl
      · split <;> rfl
  refine ⟨flow_initial i j, fun _ => rfl, ?_, ?_, ?_, ?_, ?_, ?_, ?_, by rintro _ ⟨⟩⟩
  · intro s
    refine ⟨?_, ?_, ?_, ?_⟩
    · intro k code h
      rw [hgos] at h
      cases h
    · intro code _
      simp [front, hrec, hret, hgos, hloop, hunread, opsOn, Pc.hand]
    · rintro code - (h | ⟨op, ho, -⟩)
      · cases (hclosed s code).symm.trans h
      · simp [hloop] at ho
    intro code _ l d h
    have hmem := h.subset (mem_append_right l mem_cons_self)
    cases s with
    | opener => cases hmem
    | accepter => cases mem_singleton.mp hmem
  · intro s
    refine ⟨?_, ?_, ?_⟩
    · intro k code h
      rw [hgos] at h
      cases h
    · intro code
      cases s <;> exact nil_prefix
    · intro code
      rw [hgos]
      cases s <;> exact .inl rfl
  · intro s
    have hclose : ChanMsg.close ∉ sentMsgs ((initial i j : Pair ι).ends s).log := by
      intro h
      cases s with
      | opener => cases h
      | accepter => cases mem_singleton.mp h
    exact ⟨fun h => absurd h hclose, fun l l' h => absurd (by simp [h]) hclose⟩
  · intro s
    have hopen : ((initial i j : Pair ι).ends s).ch.msg.closed = false ∧
        ((initial i j : Pair ι).ends s).ch.incomingRequests.closed = false := by
      cases s <;> exact ⟨rfl, rfl⟩
    exact ⟨by simp [hloop], by simp [hloop], by simp [hloop], by simp [hloop], fun _ => hopen⟩
  · intro s
    cases s with
    | opener => exact .waiting ⟨rfl, rfl, rfl, rfl, fun _ => rfl⟩ rfl rfl
    | accepter => exact .answered (by simp [hloop]) rfl fun _ => rfl
  · intro s
    cases s <;> rfl
  · intro s
    cases s with
    | opener =>
      intro m hm
      cases hm
    | accepter => exact ⟨_, _, _, [], rfl, by simp⟩

variable [DecidableEq ι]

section

variable (hi : p.Streams reader writer)

include hi

theorem Streams.no_fault {a : Endpoint.Act ι}
    (h : Endpoint.Steps (p.ends s) a e eff) (ha : a.Allowed (reader s) (writer s)) :
    ∀ f, eff ≠ some (.fault f) := by
  cases h with
  | run hr =>
    intro f hf
    obtain hr | ⟨m, hr⟩ := hr.effect <;> cases hr.symm.trans hf
  | @loop op ops q choice hl hp =>
    have hc : choice ≠ .muxHalt := by
      rintro rfl
      exact ha
    refine (hi.stage s).no_fault (hi.tidy s) (hi.flow.bounded s).sound hl hp hc ?_
      (hi.flow.add_fits hl)
    rintro x n d rfl
    exact hi.flow.debit_fits hl
  | _ =>
    intro f hf
    cases hf

theorem Streams.removes {a : Endpoint.Act ι}
    (h : Endpoint.Steps (p.ends s) a e (some (.remove k))) :
    .close ∈ receivedMsgs (p.ends s).log := by
  generalize heff : some (remove k) = eff at h
  cases h with
  | run hr => obtain hr | ⟨m, hr⟩ := hr.effect <;> cases heff.trans hr
  | @loop op ops q choice hl hp =>
    cases hp <;> cases heff
    exact (hi.tidy s).undoes .remove (hl ▸ mem_cons_self) rfl
  | _ => cases heff

theorem Streams.stepEnd {a : Endpoint.Act ι}
    (h : Endpoint.Steps (p.ends s) a e eff) (ha : a.Allowed (reader s) (writer s))
    (hl : p.links s.other = a.inbox ++ ms) :
    Streams ((setEnd { p with links := update p.links s.other ms } s e).absorb s eff)
      reader writer := by
  have hf := hi.no_fault h ha
  have hd : ∀ m, a = .deliver m → .close ∉ receivedMsgs (p.ends s).log ∧
      ((s == .opener && (receivedMsgs (p.ends s).log).isEmpty) = true →
        ∃ i w n, m = .openConfirm i w n) ∧
      ((s == .opener && (receivedMsgs (p.ends s).log).isEmpty) = false → m.plain = true) := by
    rintro m rfl
    exact hi.next hl
  have hfail : ∀ m, a = .deliver m → .close ∉ receivedMsgs (p.ends s).log ∧
      ∀ f, m ≠ .openFailure f := by
    intro m hm
    obtain ⟨hc, hw, hp⟩ := hd m hm
    refine ⟨hc, ?_⟩
    rintro f rfl
    cases hb : (s == .opener && (receivedMsgs (p.ends s).log).isEmpty) with
    | true =>
      obtain ⟨i, w, n, hx⟩ := hw hb
      cases hx
    | false => cases hp hb
  have hsent := h.sentMsgs
  have hrec := h.receivedMsgs
  have hends := ends_absorb (setEnd { p with links := update p.links s.other ms } s e) s eff
  have hstage : e.Stage (s == .opener && (receivedMsgs e.log).isEmpty) := by
    have hs := (hi.stage s).step h hf ha fun m hm => (hd m hm).2
    have hemp : (receivedMsgs e.log).isEmpty =
        ((receivedMsgs (p.ends s).log).isEmpty && a.inbox.isEmpty) := by
      rw [hrec]
      cases receivedMsgs (p.ends s).log <;> rfl
    rwa [Bool.and_assoc, ← hemp] at hs
  have hgreets : Greets s (sentMsgs e.log) := by
    rw [hsent]
    exact (hi.greets s).append ((hi.stage s).plain h)
  refine ⟨hi.flow.stepEnd h hl, ?_,
    forall_ends (P := fun t e => e.Reading (reader t))
      ((hi.reading s).step h hf (hi.flow.bounded s).sound ha) hi.reading hends,
    forall_ends (P := fun t e => e.Writing (writer t)) ((hi.writing s).step h (hi.stage s) ha)
      hi.writing hends,
    forall_ends ((hi.sent s).step h.sentMsgs h.closes h.later) hi.sent hends,
    forall_ends ((hi.tidy s).step h hf (hi.flow.accounted s).control hfail) hi.tidy hends,
    forall_ends (P := fun t e => e.Stage (t == .opener && (receivedMsgs e.log).isEmpty)) hstage
      hi.stage hends, ?_,
    forall_ends (P := fun t e => Greets t (sentMsgs e.log)) hgreets hi.greets hends, ?_⟩
  · intro t
    rw [faults_absorb hf]
    exact hi.healthy t
  · intro t
    obtain rfl | rfl := s.eq_or_eq_other t
    · have hfifo := hi.fifo t
      simp [setEnd, hsent, hfifo]
    have hfifo := hi.fifo s.other
    rw [hl, Side.other_other] at hfifo
    simp [setEnd, hrec, hfifo, Side.other_other]
  · intro t ht
    obtain ht | ⟨rfl, id, rfl⟩ := listed_absorb ht
    · have hc := hi.listed t ht
      obtain rfl | rfl := s.eq_or_eq_other t
      · simp [setEnd, hrec, hc]
      · simpa [setEnd] using hc
    · simp [setEnd, hrec, hi.removes h]

theorem Streams.step (ha : Allowed reader writer a)
    (h : p.step a = some p') : p'.Streams reader writer := by
  cases step_cases h with
  | @act a s e eff hd he =>
    have hs := hi.stepEnd he ha (congrArg (· ++ p.links s.other) (a.inbox_of_ne hd)).symm
    rwa [update_eq_self] at hs
  | deliver hm hf hl he => exact hi.stepEnd he trivial hm
  | @lost s m ms hm hf hl => exact absurd (hi.listed s hl) (hi.next hm).1
  | teardown hf hl hd => exact absurd (hi.healthy _) hf

end

/-- What is returned on a stream is a prefix of what was written on it, and EOF is returned only
when EOF or CLOSE was sent and everything sent before it has been returned. -/
theorem returned_prefix_written (reader writer : Side → Nat → ι) (i j : Nat) (as : List (Act ι))
    (hg : ∀ a ∈ as, Allowed reader writer a)
    (h : exec Pair.step (initial i j) as = some p) (s : Side) (code : Nat) (hc : code ≤ 1) :
    returned code (p.ends s.other).log <+: written code (p.ends s).log ∧
      ∀ l d, l ++ [.returned (.read code d (some .eof))] <+: (p.ends s.other).log →
        (∃ m ∈ sentMsgs (p.ends s).log, m.ends = true) ∧
          dataOf code (beforeEnd (sentMsgs (p.ends s).log)) <+: returned code l := by
  have hi : p.Streams reader writer := by
    refine run_invariant (I := fun q => q.Streams reader writer)
      (G := fun _ a => Allowed reader writer a) ?_
      (streams_initial reader writer i j) (along_of_forall fun a ha _ => hg a ha) h
    intro q a q' hq ha hs
    exact hq.step ha hs
  have hchain := (hi.reading s.other).chain code hc
  have hfifo := hi.fifo s
  have hret : returned code (p.ends s.other).log <+:
      dataOf code (receivedMsgs (p.ends s.other).log) := by
    rw [hchain, front, append_assoc, append_assoc]
    exact prefix_append _ _
  have hrec : dataOf code (receivedMsgs (p.ends s.other).log) <+:
      dataOf code (sentMsgs (p.ends s).log) := by
    rw [hfifo, dataOf_append]
    exact prefix_append _ _
  refine ⟨(hret.trans hrec).trans ((hi.writing s).pre code), ?_⟩
  intro l d hl
  obtain ⟨⟨m, hm, he⟩, hle⟩ := (hi.reading s.other).eof code hc l d hl
  refine ⟨⟨m, hfifo ▸ mem_append_left _ hm, he⟩, ?_⟩
  rw [hfifo, beforeEnd_append_of_mem _ _ hm he]
  have hpre : returned code l <+: dataOf code (receivedMsgs (p.ends s.other).log) := by
    obtain ⟨t, ht⟩ := hl
    refine List.IsPrefix.trans ?_ hret
    rw [← ht, returned_append, returned_append, append_assoc]
    exact prefix_append _ _
  exact prefix_of_prefix_length_le
    (dataOf_mono code _ _ (List.takeWhile_prefix _)) hpre hle

/-- The opener writes three bytes to stderr and calls `CloseWrite`; the accepter reads them, and
then EOF. -/
def drainingSchedule : List (Act Unit) :=
  [.deliver .opener, .act .opener (.loop .comm), .act .opener (.loop .comm),
    .act .opener (.loop .comm), .act .opener .opened,
    .act .opener (.call () (.write 1 [1, 2, 3])), .act .opener (.run () .comm),
    .act .opener (.run () .comm), .act .opener (.run () .comm), .act .opener (.call () .closeWrite),
    .act .opener (.run () .comm), .act .opener (.run () .comm),
    .deliver .accepter, .act .accepter (.loop .comm), .act .accepter (.loop .comm),
    .act .accepter (.call () (.read 1 8)), .act .accepter (.run () .comm),
    .act .accepter (.run () .comm), .act .accepter (.run () .comm),
    .deliver .accepter, .act .accepter (.loop .comm), .act .accepter (.loop .comm),
    .act .accepter (.call () (.read 1 8)), .act .accepter (.run () .comm)]

theorem returned_prefix_written_draining :
    ∃ p : Pair Unit, exec Pair.step (initial 0 0) drainingSchedule = some p ∧
      returned 1 (p.ends .accepter).log = [1, 2, 3] ∧
      .returned (.read 1 [] (some .eof)) ∈ (p.ends .accepter).log ∧
      returned 1 (p.ends .accepter).log <+: written 1 (p.ends .opener).log := by
  have hg : ∀ a ∈ drainingSchedule, Allowed (fun _ _ => ()) (fun _ _ => ()) a := by
    simp [drainingSchedule, Allowed, Endpoint.Act.Allowed]
  refine ⟨_, rfl, rfl, by decide, ?_⟩
  exact (returned_prefix_written _ _ 0 0 drainingSchedule hg rfl .opener 1 (by decide)).1

end Pair

end XCryptoSsh
