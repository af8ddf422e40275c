import XCryptoSsh.ChannelFlow
import XCryptoSsh.Mux

namespace XCryptoSsh
open List Endpoint
set_option autoImplicit true

namespace Op

def usesMsg : Op → Bool
  | .closeMsg | .pushMsg _ => true
  | _ => false

def usesRequests : Op → Bool
  | .closeRequests | .pushRequest _ => true
  | _ => false

def closes : Op → Bool
  | .closeMsg | .closeRequests => true
  | _ => false

/-- What may follow a step: no use of a Go channel that it closes, and the channel leaves the list
before, and once. -/
def Before (a b : Op) : Prop :=
  (a = .closeMsg → b.usesMsg = false) ∧ (a = .closeRequests → b.usesRequests = false) ∧
    (a.closes = true ∨ a = .remove → b ≠ .remove)

instance (a b : Op) : Decidable (Before a b) := inferInstanceAs (Decidable (_ ∧ _ ∧ _))

theorem before_of_not_closes {a b : Op} (h : a.closes = false) (hr : a = .remove → b ≠ .remove) :
    Before a b := by
  refine ⟨?_, ?_, ?_⟩
  · rintro rfl
    cases h
  · rintro rfl
    cases h
  rintro (ha | ha)
  · cases h.symm.trans ha
  · exact hr ha

theorem before_close : close.Pairwise Before := by decide

theorem closes_handlePacket {m : ChanMsg} (hm : m ≠ .close) :
    ∀ op ∈ handlePacket m, op.closes = false := by
  cases m with
  | close => exact absurd rfl hm
  | _ => simp [handlePacket, closes]

theorem pairwise_before {ops : List Op} (h : ∀ op ∈ ops, op.closes = false ∧ op ≠ .remove) :
    ops.Pairwise Before := by
  induction ops with
  | nil => exact .nil
  | cons op ops ih =>
    obtain ⟨hc, hr⟩ := h op mem_cons_self
    refine .cons ?_ (ih fun o ho => h o (.tail op ho))
    exact fun b _ => before_of_not_closes hc fun ho => absurd ho hr

theorem before_handlePacket (m : ChanMsg) : (handlePacket m).Pairwise Before := by
  cases m with
  | close => decide
  | openFailure f =>
    have h : ∀ a, a.closes = false → Before a (.pushMsg (.openFailure f)) :=
      fun a ha => before_of_not_closes ha nofun
    refine .cons ?_ (.cons ?_ (pairwise_singleton _ _))
    · intro b hb
      obtain rfl | hb := mem_cons.mp hb
      · exact before_of_not_closes rfl nofun
      · exact mem_singleton.mp hb ▸ h .respond rfl
    · intro b hb
      exact mem_singleton.mp hb ▸ h .remove rfl
  | _ =>
    apply pairwise_before
    simp [handlePacket, closes]

theorem remove_mem_of_closes {m : ChanMsg} (h : op ∈ handlePacket m) (hc : op.closes = true) :
    .remove ∈ handlePacket m := by
  by_cases hm : m = .close
  · subst hm
    decide
  · rw [closes_handlePacket hm op h] at hc
    cases hc

theorem debit_not_mem_close (y : Option Nat) (n : Nat) (b : Go.Bytes) :
    .debit y n b ∉ handlePacket .close := by
  simp [handlePacket, close]

theorem not_err_of_close (h : op ∈ handlePacket .close) (c : Channel) (choice : Choice) (x : Err) :
    ¬ op.Faults c choice (.err x) := by
  simp only [handlePacket, close, mem_cons, not_mem_nil, or_false] at h
  obtain rfl | rfl | rfl | rfl | rfl | rfl | rfl | rfl | rfl | rfl := h <;> simp [Faults]

def Done (c : Channel) : Op → Prop
  | .eofPending => c.pending.closed = true
  | .eofExtPending => c.extPending.closed = true
  | .closeMsg => c.msg.closed = true
  | .closeRequests => c.incomingRequests.closed = true
  | .markSentClose => c.sentClose = true
  | .closeWin => c.remoteWin.closed = true
  | .stopHalt => c.haltStop = true
  | .stopIdle => c.idleStop = true
  | _ => True

end Op

structure Channel.Keeps (c c' : Channel) : Prop where
  pending : c.pending.closed = true → c'.pending.closed = true
  extPending : c.extPending.closed = true → c'.extPending.closed = true
  msg : c.msg.closed = true → c'.msg.closed = true
  requests : c.incomingRequests.closed = true → c'.incomingRequests.closed = true
  sentClose : c.sentClose = true → c'.sentClose = true
  win : c.remoteWin.closed = true → c'.remoteWin.closed = true
  halt : c.haltStop = true → c'.haltStop = true
  idle : c.idleStop = true → c'.idleStop = true

theorem Channel.Keeps.done {c c' : Channel} (h : c.Keeps c') (hd : Op.Done c op) :
    op.Done c' := by
  cases op with
  | eofPending => exact h.pending hd
  | eofExtPending => exact h.extPending hd
  | closeMsg => exact h.msg hd
  | closeRequests => exact h.requests hd
  | markSentClose => exact h.sentClose hd
  | closeWin => exact h.win hd
  | stopHalt => exact h.halt hd
  | stopIdle => exact h.idle hd
  | _ => trivial

theorem Channel.Keeps.refl (c : Channel) : c.Keeps c := ⟨id, id, id, id, id, id, id, id⟩

theorem Channel.keeps_setStream {c : Channel} (hb : c.stream code = some b)
    (hc : b'.closed = b.closed) : c.Keeps (c.setStream b' code) := by
  refine ⟨?_, ?_, id, id, id, id, id, id⟩
  · intro h
    unfold stream at hb
    simp only [setStream]
    split
    · rename_i h₀
      subst h₀
      cases hb
      exact hc.trans h
    · exact h
  · intro h
    unfold stream at hb
    simp only [setStream]
    split
    · rename_i h₁
      subst h₁
      cases hb
      exact hc.trans h
    · exact h

theorem Runs.keeps (h : Runs c pc r) : c.Keeps r.ch := by
  cases h with
  | reserveLost hc hw => exact ⟨id, id, id, id, id, fun _ => rfl, id, id⟩
  | reserve hs hc hw hk =>
    refine ⟨id, id, id, id, id, ?_, id, id⟩
    intro h
    cases hc.symm.trans h
  | readNothing hb hr | read hb hr => exact Channel.keeps_setStream hb (Buffer.read_spec hr).2.1
  | stopIdle => exact ⟨id, id, id, id, id, id, id, fun _ => rfl⟩
  | stopHalt => exact ⟨id, id, id, id, id, id, fun _ => rfl, id⟩
  | sendClose h => exact ⟨id, id, id, id, fun _ => rfl, id, id, id⟩
  | _ => exact ⟨id, id, id, id, id, id, id, id⟩

theorem Performs.keeps (h : Performs c choice op p) : c.Keeps p.ch := by
  cases h with
  | @store extended payload =>
    rw [Channel.storeData_eq]
    refine ⟨?_, ?_, id, id, id, id, id, id⟩
    iterate 2
      · intro h
        change (if _ then _ else _ : Buffer).closed = true
        split <;> exact h
  | sendClose h | markSentClose => exact ⟨id, id, id, id, fun _ => rfl, id, id, id⟩
  | eofPending => exact ⟨fun _ => rfl, id, id, id, id, id, id, id⟩
  | eofExtPending => exact ⟨id, fun _ => rfl, id, id, id, id, id, id⟩
  | closeMsg h => exact ⟨id, id, fun _ => rfl, id, id, id, id, id⟩
  | closeRequests h => exact ⟨id, id, id, fun _ => rfl, id, id, id, id⟩
  | closeWin => exact ⟨id, id, id, id, id, fun _ => rfl, id, id⟩
  | stopHalt => exact ⟨id, id, id, id, id, id, fun _ => rfl, id⟩
  | stopIdle => exact ⟨id, id, id, id, id, id, id, fun _ => rfl⟩
  | confirm hl hu | addWindow h =>
    exact ⟨id, id, id, id, id, fun h => (Window.closed_add _ _).trans h, id, id⟩
  | _ => exact ⟨id, id, id, id, id, id, id, id⟩

theorem Performs.done (h : Performs c choice op p) (hf : ∀ f, p.effect ≠ some (.fault f)) :
    op.Done p.ch := by
  cases h with
  | fault h => exact absurd rfl (hf _)
  | _ => first | rfl | trivial

theorem Runs.frame (h : Runs c pc r) :
    r.ch.localId = c.localId ∧ r.ch.direction = c.direction ∧ r.ch.decided = c.decided ∧
      r.ch.msg.closed = c.msg.closed ∧ r.ch.incomingRequests = c.incomingRequests := by
  cases h <;> exact ⟨rfl, rfl, rfl, rfl, rfl⟩

section

variable (h : Performs c choice op p)

include h

theorem Performs.localId_eq : p.ch.localId = c.localId ∧ p.ch.direction = c.direction := by
  cases h with
  | store => rw [Channel.storeData_eq]; exact ⟨rfl, rfl⟩
  | _ => exact ⟨rfl, rfl⟩

theorem Performs.msg_closed (hop : op ≠ .closeMsg) : p.ch.msg.closed = c.msg.closed := by
  cases h with
  | store => rw [Channel.storeData_eq]; rfl
  | closeMsg => exact absurd rfl hop
  | _ => rfl

theorem Performs.requests_closed (hop : op ≠ .closeRequests) :
    p.ch.incomingRequests.closed = c.incomingRequests.closed := by
  cases h with
  | store => rw [Channel.storeData_eq]; rfl
  | closeRequests => exact absurd rfl hop
  | _ => rfl

theorem Performs.effect_cases : p.effect = none ∨ p.effect = some (.send .close) ∨
      op = .remove ∧ p.effect = some (.remove c.localId) ∨
        ∃ f, op.Faults c choice f ∧ p.effect = some (.fault f) := by
  cases h with
  | fault h => exact .inr (.inr (.inr ⟨_, h, rfl⟩))
  | sendClose h => exact .inr (.inl rfl)
  | remove => exact .inr (.inr (.inl ⟨rfl, rfl⟩))
  | _ => exact .inl rfl

theorem Performs.rest_cases (ops : List Op) :
    (∃ f, p.effect = some (.fault f)) ∧ p.rest ops = [] ∨ p.rest ops = ops ∨
      (∃ y n b, op = .debit y n b) ∧ ∃ x d, p.rest ops = .store x d :: ops := by
  cases h with
  | fault h => exact .inl ⟨⟨_, rfl⟩, rfl⟩
  | debit hm hl hw hs => exact .inr (.inr ⟨⟨_, _, _, rfl⟩, _, _, rfl⟩)
  | _ => exact .inr (.inl rfl)

theorem Performs.mem_of_rest (hm : o ∈ p.rest ops) : o ∈ ops ∨ ∃ x d, o = .store x d := by
  obtain ⟨-, hr⟩ | hr | ⟨-, x, d, hr⟩ := h.rest_cases ops
  · rw [hr] at hm
    cases hm
  · exact .inl (hr ▸ hm)
  · rw [hr, mem_cons] at hm
    exact hm.elim (fun he => .inr ⟨x, d, he⟩) .inl

end

namespace Endpoint

variable {ι : Type} {e e' : Endpoint ι}

def Open (e : Endpoint ι) : Prop :=
  e.ch.msg.closed = false ∧ e.ch.incomingRequests.closed = false

structure Tame (e : Endpoint ι) : Prop where
  order : e.loop.Pairwise Op.Before
  msg : ∀ op ∈ e.loop, op.usesMsg = true → e.ch.msg.closed = false
  requests : ∀ op ∈ e.loop, op.usesRequests = true → e.ch.incomingRequests.closed = false

theorem Tame.of_nil (h : e.loop = []) : e.Tame := by
  refine ⟨?_, ?_, ?_⟩ <;> simp [h]

theorem Tame.of_open (h : e.Open) (ho : e.loop.Pairwise Op.Before) : e.Tame :=
  ⟨ho, fun _ _ _ => h.1, fun _ _ _ => h.2⟩

theorem Tame.perform (h : e.Tame) (hl : e.loop = op :: ops) (hp : Performs e.ch choice op p) :
    (e.performed p ops).Tame := by
  have ho := h.order
  rw [hl, pairwise_cons] at ho
  refine ⟨?_, ?_, ?_⟩
  · change (p.rest ops).Pairwise Op.Before
    obtain ⟨-, hr⟩ | hr | ⟨-, x, d, hr⟩ := hp.rest_cases ops
    · rw [hr]
      exact .nil
    · rw [hr]
      exact ho.2
    rw [hr]
    refine pairwise_cons.mpr ⟨?_, ho.2⟩
    exact fun b _ => Op.before_of_not_closes rfl nofun
  · intro o hm hu
    obtain hm | ⟨x, d, rfl⟩ := hp.mem_of_rest hm
    · have hop : op ≠ .closeMsg := by
        intro hop
        rw [(ho.1 o hm).1 hop] at hu
        cases hu
      exact (hp.msg_closed hop).trans (h.msg o (hl ▸ mem_cons_of_mem op hm) hu)
    · cases hu
  · intro o hm hu
    obtain hm | ⟨x, d, rfl⟩ := hp.mem_of_rest hm
    · have hop : op ≠ .closeRequests := by
        intro hop
        rw [(ho.1 o hm).2.1 hop] at hu
        cases hu
      exact (hp.requests_closed hop).trans (h.requests o (hl ▸ mem_cons_of_mem op hm) hu)
    · cases hu

theorem Tame.no_panic (h : e.Tame) (hl : e.loop = op :: ops) (choice : Choice) (text : String) :
    ¬ op.Faults e.ch choice (.panic text) := by
  have hm := h.msg op (hl ▸ mem_cons_self)
  have hr := h.requests op (hl ▸ mem_cons_self)
  intro hf
  cases op with
  | closeMsg | pushMsg m => simp [hm rfl, Op.Faults] at hf
  | closeRequests | pushRequest r => simp [hr rfl, Op.Faults] at hf
  | _ => simp [Op.Faults] at hf

theorem remove_mem_of_performed (hp : Performs e.ch choice op p) (hl : e.loop = op :: ops)
    (hm : .remove ∈ (e.performed p ops).loop) : .remove ∈ e.loop := by
  change _ ∈ p.rest ops at hm
  rw [hl]
  obtain ⟨-, hr⟩ | hr | ⟨-, x, d, hr⟩ := hp.rest_cases ops <;> rw [hr] at hm
  · cases hm
  · exact .tail op hm
  · exact .tail op ((mem_cons.mp hm).resolve_left nofun)

structure Ending (e : Endpoint ι) : Prop where
  loop : e.loop <:+ Op.handlePacket .close
  steps : ∀ op ∈ Op.close, op ∈ e.loop ∨ op.Done e.ch

def Ended (e : Endpoint ι) : Prop := ∀ op ∈ Op.close, op.Done e.ch

def Refused (e : Endpoint ι) : Prop := ∃ f, Event.received (.openFailure f) ∈ e.log

theorem Ending.ended (h : e.Ending) (hl : e.loop = []) : e.Ended := by
  intro op ho
  exact (h.steps op ho).resolve_left (by simp [hl])

theorem Ending.perform (h : e.Ending) (ht : e.Tame) (hl : e.loop = op :: ops)
    (hp : Performs e.ch choice op p) : (e.performed p ops).Ending := by
  have hs : op :: ops <:+ Op.handlePacket .close := hl ▸ h.loop
  have hop : op ∈ Op.handlePacket .close := hs.subset mem_cons_self
  have hf : ∀ f, p.effect ≠ some (.fault f) := by
    intro f he
    obtain he' | he' | ⟨-, he'⟩ | ⟨f', hf', he'⟩ := hp.effect_cases <;> rw [he'] at he <;> cases he
    cases f with
    | panic text => exact ht.no_panic hl choice text hf'
    | err x => exact Op.not_err_of_close hop _ _ x hf'
  have hr : p.rest ops = ops := by
    obtain ⟨⟨f, he⟩, -⟩ | hr | ⟨⟨y, n, b, rfl⟩, -⟩ := hp.rest_cases ops
    · exact absurd he (hf f)
    · exact hr
    · exact absurd hop (Op.debit_not_mem_close y n b)
  refine ⟨?_, ?_⟩
  · change p.rest ops <:+ _
    rw [hr]
    exact (suffix_cons op ops).trans hs
  intro o ho
  change o ∈ p.rest ops ∨ _
  rw [hr]
  obtain hm | hd := h.steps o ho
  · rw [hl, mem_cons] at hm
    obtain rfl | hm := hm
    · exact .inr (hp.done hf)
    · exact .inl hm
  · exact .inr (hp.keeps.done hd)

theorem Ending.of_keeps (h : e.Ending) (hk : e.ch.Keeps e'.ch) (hl : e'.loop = e.loop) :
    e'.Ending :=
  ⟨hl ▸ h.loop, fun op ho => (h.steps op ho).imp (hl ▸ ·) hk.done⟩

end Endpoint

def MuxPc.todo : MuxPc → List Nat
  | .drop _ ks | .close _ _ ks => ks
  | _ => []

def MuxPc.dropped : MuxPc → List Nat
  | .drop _ ks => ks
  | .close _ k ks => k :: ks
  | _ => []

theorem MuxPc.todo_of_looping {pc : MuxPc} (h : pc.looping = true) : pc.todo = [] := by
  cases pc <;> first | rfl | cases h

theorem MuxPc.todo_of_dropped {pc : MuxPc} (h : pc.dropped = []) : pc.todo = [] := by
  cases pc <;> first | rfl | exact h | cases h

structure Endpoint.Kept (e : Endpoint ι) (l : ChanList) (pc : MuxPc) (k : Nat) : Prop where
  idle : pc.running ≠ some k → e.loop = []
  tame : e.Tame
  listed : ∀ i, l.slot i = some k → e.ch.localId = i ∧ e.Open ∧
    ∀ op ∈ e.loop, op.closes = true → .remove ∈ e.loop
  leaving : .remove ∈ e.loop → e.Ending ∨ e.Refused
  todo : k ∈ pc.todo → e.Open
  closing : ∀ x ks, pc = .close x k ks → e.loop <:+ Op.close

def Mux.Listed (m : Mux ι) (k : Nat) : Prop := ∃ i, m.chanList.slot i = some k

/-- The packet loop runs the code of at most one channel, a listed channel has open Go channels, and
a channel is closed at most once. -/
structure Mux.Sound (m : Mux ι) : Prop where
  chan : ∀ (k : Nat) (e : Endpoint ι), m.chans[k]? = some e → e.Kept m.chanList m.pc k
  slots : ∀ i k, m.chanList.slot i = some k → k < m.chans.length
  running : ∀ k, m.pc.running = some k → k < m.chans.length
  leaving : ∀ (k : Nat) (e : Endpoint ι), m.pc.running = some k → m.chans[k]? = some e →
    .remove ∈ e.loop → ∃ i, m.chanList.slot i = some k
  todo : ∀ k ∈ m.pc.todo, k < m.chans.length
  unlisted : ∀ k ∈ m.pc.dropped, ∀ i, m.chanList.slot i ≠ some k
  nodup : m.pc.dropped.Nodup

namespace Endpoint

variable {ι : Type} {e e' : Endpoint ι}

/-- What a step outside the packet loop leaves as it was. -/
structure Aside (e e' : Endpoint ι) : Prop where
  loop : e'.loop = e.loop
  keeps : e.ch.Keeps e'.ch
  localId : e'.ch.localId = e.ch.localId
  msg : e'.ch.msg.closed = e.ch.msg.closed
  requests : e'.ch.incomingRequests.closed = e.ch.incomingRequests.closed
  log : e.log <+: e'.log

theorem Aside.refused (h : e.Aside e') : e.Refused → e'.Refused := by
  rintro ⟨f, hf⟩
  exact ⟨f, h.log.subset hf⟩

theorem Kept.frame (h : e.Kept l pc k) (hf : e.Aside e') : e'.Kept l pc k := by
  have hlog := hf.refused
  obtain ⟨hl, hk, hi, hm, hr, -⟩ := hf
  have ho : e.Open → e'.Open := fun ho => ⟨hm.trans ho.1, hr.trans ho.2⟩
  refine ⟨hl ▸ h.idle, ?_, ?_, ?_, fun hk => ho (h.todo hk), hl ▸ h.closing⟩
  · exact ⟨hl ▸ h.tame.order, fun op hop hu => hm.trans (h.tame.msg op (hl ▸ hop) hu),
      fun op hop hu => hr.trans (h.tame.requests op (hl ▸ hop) hu)⟩
  · intro i hs
    obtain ⟨h₁, h₂, h₃⟩ := h.listed i hs
    exact ⟨hi.trans h₁, ho h₂, hl ▸ h₃⟩
  · intro hrm
    rw [hl] at hrm
    exact (h.leaving hrm).imp (fun hc => hc.of_keeps hk hl) hlog

theorem Kept.shrink (h : e.Kept l pc k) (hl : ∀ i, l'.slot i = some k → l.slot i = some k) :
    e.Kept l' pc k :=
  ⟨h.idle, h.tame, fun i hi => h.listed i (hl i hi), h.leaving, h.todo, h.closing⟩

theorem Kept.goto (h : e.Kept l pc k) (hl : pc.running = some k → e.loop = [])
    (hr : pc'.running ≠ some k) (ht : k ∈ pc'.todo → k ∈ pc.todo) : e.Kept l pc' k := by
  have hn : e.loop = [] := by
    by_cases hk : pc.running = some k
    · exact hl hk
    · exact h.idle hk
  refine ⟨fun _ => hn, h.tame, h.listed, h.leaving, fun hk => h.todo (ht hk), ?_⟩
  rintro x ks rfl
  exact absurd rfl hr

theorem Kept.perform (h : e.Kept l pc k) (hr : pc.running = some k) (hn : k ∉ pc.todo)
    (hl : e.loop = op :: ops) (hp : Performs e.ch choice op p) (hop : op ≠ .remove) :
    (e.performed p ops).Kept l pc k := by
  refine ⟨fun hk => absurd hr hk, h.tame.perform hl hp, ?_, ?_, fun hk => absurd hk hn, ?_⟩
  · intro i hi
    obtain ⟨hid, hopen, hcl⟩ := h.listed i hi
    have ho := h.tame.order
    rw [hl] at hcl ho
    -- a Go channel is closed after the channel has left the list
    have hnc : op.closes = false := by
      cases hc : op.closes with
      | false => rfl
      | true =>
        have hm := hcl op mem_cons_self hc
        have hm := (mem_cons.mp hm).resolve_left (Ne.symm hop)
        exact absurd rfl ((rel_of_pairwise_cons ho hm).2.2 (.inl hc))
    refine ⟨hp.localId_eq.1.trans hid, ⟨?_, ?_⟩, ?_⟩
    · exact (hp.msg_closed (by rintro rfl; cases hnc)).trans hopen.1
    · exact (hp.requests_closed (by rintro rfl; cases hnc)).trans hopen.2
    intro o hm hc
    change o ∈ p.rest ops at hm
    change _ ∈ p.rest ops
    obtain ⟨-, hr⟩ | hr | ⟨-, x, d, hr⟩ := hp.rest_cases ops <;> rw [hr] at hm ⊢
    · cases hm
    · exact (mem_cons.mp (hcl o (.tail op hm) hc)).resolve_left (Ne.symm hop)
    obtain rfl | hm := mem_cons.mp hm
    · cases hc
    · exact .tail _ ((mem_cons.mp (hcl o (.tail op hm) hc)).resolve_left (Ne.symm hop))
  · intro hm
    refine (h.leaving (remove_mem_of_performed hp hl hm)).imp (fun hc => hc.perform h.tame hl hp) ?_
    rintro ⟨f, hf⟩
    exact ⟨f, mem_append_left _ hf⟩
  · intro x ks hpc
    have hs := h.closing x ks hpc
    rw [hl] at hs
    change p.rest ops <:+ _
    obtain ⟨-, hr⟩ | hr | ⟨⟨y, n, b, rfl⟩, -⟩ := hp.rest_cases ops
    · rw [hr]
      exact nil_suffix
    · rw [hr]
      exact (suffix_cons op ops).trans hs
    · have hop := hs.subset mem_cons_self
      exact absurd (.tail _ (.tail _ hop)) (Op.debit_not_mem_close y n b)

theorem Kept.perform_remove (h : e.Kept l pc k) (hlen : l.chans.length < 2 ^ 32)
    (hr : pc.running = some k) (hn : k ∉ pc.todo) (hl : e.loop = .remove :: ops)
    (hp : Performs e.ch choice .remove p) :
    (e.performed p ops).Kept (l.remove e.ch.localId) pc k := by
  have hrest : p.rest ops = ops := by
    obtain ⟨⟨f, he⟩, -⟩ | hr | ⟨⟨y, n, b, hop⟩, -⟩ := hp.rest_cases ops
    · obtain he' | he' | ⟨-, he'⟩ | ⟨f', hf', he'⟩ := hp.effect_cases <;> rw [he'] at he <;>
        cases he
      cases hf'
    · exact hr
    · cases hop
  refine ⟨fun hk => absurd hr hk, h.tame.perform hl hp, ?_, ?_, fun hk => absurd hk hn, ?_⟩
  · intro i hi
    obtain hs | ⟨-, hs⟩ := l.slot_remove e.ch.localId i
    · obtain ⟨rfl, -⟩ := h.listed i (hs ▸ hi)
      rw [ChanList.slot_remove_self hlen] at hi
      cases hi
    · cases hs.symm.trans hi
  · intro hm
    refine (h.leaving (hl ▸ mem_cons_self)).imp (fun hc => hc.perform h.tame hl hp) ?_
    rintro ⟨f, hf⟩
    exact ⟨f, mem_append_left _ hf⟩
  · intro x ks hpc
    have hs := h.closing x ks hpc
    rw [hl] at hs
    change p.rest ops <:+ _
    rw [hrest]
    exact (suffix_cons _ ops).trans hs

end Endpoint

namespace Mux

variable {ι : Type} {m m' : Mux ι} {e e' : Endpoint ι} {k : Nat}

theorem getElem?_set {xs : List α} (h : xs[k]? = some x) (y : α) (j : Nat) :
    (xs.set k y)[j]? = if j = k then some y else xs[j]? := by
  by_cases hj : j = k
  · subst hj
    obtain ⟨hlt, -⟩ := List.getElem?_eq_some_iff.mp h
    rw [if_pos rfl, List.getElem?_set_self hlt]
  · rw [if_neg hj, List.getElem?_set_ne (Ne.symm hj)]

theorem deliver_eq (he : m.chans[k]? = some e) (msg : ChanMsg) :
    m.deliver k msg = (m.setChan k (e.receive msg)).goto (.handle k) := by
  unfold deliver setChan goto
  rw [modify_eq_set_getElem? , he]
  rfl

theorem getElem?_deliver (he : m.chans[k]? = some e) (msg : ChanMsg) (j : Nat) :
    (m.deliver k msg).chans[j]? = if j = k then some (e.receive msg) else m.chans[j]? := by
  rw [deliver_eq he]
  exact getElem?_set he _ j

theorem sound_newMux : (newMux : Mux ι).Sound := by
  constructor <;> simp [newMux, MuxPc.running, MuxPc.todo, MuxPc.dropped, ChanList.slot]

section

variable (h : m.Sound)

include h

theorem Sound.congr (hc : m'.chans = m.chans) (hl : m'.chanList = m.chanList)
    (hp : m'.pc = m.pc) : m'.Sound := by
  obtain ⟨h₁, h₂, h₃, h₄, h₅, h₆, h₇⟩ := h
  rw [← hc, ← hl, ← hp] at h₁ h₄
  rw [← hc, ← hl] at h₂
  rw [← hc, ← hp] at h₃ h₅
  rw [← hl, ← hp] at h₆
  rw [← hp] at h₇
  exact ⟨h₁, h₂, h₃, h₄, h₅, h₆, h₇⟩

theorem Sound.goto (hl : ∀ (k : Nat) e, m.pc.running = some k → m.chans[k]? = some e → e.loop = [])
    (hr : q.running = none) (hd : q.dropped <+ m.pc.dropped) (ht : q.todo ⊆ m.pc.todo) :
    (m.goto q).Sound := by
  have hq : (m.goto q).pc = q := rfl
  refine ⟨?_, h.slots, ?_, ?_, fun k hk => h.todo k (ht hk),
    fun k hk => h.unlisted k (hd.subset hk), h.nodup.sublist hd⟩
  · intro k e he
    exact (h.chan k e he).goto (fun hk => hl k e hk he) (by simp [hq, hr]) (@ht k)
  · intro k hk
    rw [hq, hr] at hk
    cases hk
  · intro k e hk
    rw [hq, hr] at hk
    cases hk

theorem Sound.goto_of_idle (hp : m.pc.running = none) (hr : q.running = none)
    (hd : q.dropped = []) : (m.goto q).Sound := by
  have ht := MuxPc.todo_of_dropped hd
  refine h.goto ?_ hr (hd ▸ nil_sublist _) (ht ▸ nil_subset _)
  intro k e hk
  cases hp.symm.trans hk

theorem Sound.update (he : m.chans[k]? = some e)
    (hl : ∀ i j, l.slot i = some j → m.chanList.slot i = some j)
    (hl' : ∀ i j, j ≠ k → m.chanList.slot i = some j → l.slot i = some j)
    (hk : e'.Kept l q k) (hothers : ∀ (j : Nat) x, j ≠ k → m.chans[j]? = some x → x.Kept l q j)
    (hr : ∀ j, q.running = some j → j = k ∨ m.pc.running = some j) (ht : q.todo ⊆ m.pc.todo)
    (hd : q.dropped <+ m.pc.dropped)
    (hrm : q.running = some k → .remove ∈ e'.loop → ∃ i, l.slot i = some k) :
    Sound { m.setChan k e' with chanList := l, pc := q } := by
  have hlen : (m.chans.set k e').length = m.chans.length := length_set
  refine ⟨?_, fun i j hi => hlen ▸ h.slots i j (hl i j hi), ?_, ?_,
    fun j hj => hlen ▸ h.todo j (ht hj), fun j hj i hi => h.unlisted j (hd.subset hj) i (hl i j hi),
    h.nodup.sublist hd⟩
  · intro j x hx
    change (m.chans.set k e')[j]? = some x at hx
    rw [getElem?_set he] at hx
    split at hx
    · rename_i hjk
      cases hx
      exact hjk ▸ hk
    · exact hothers j x ‹_› hx
  · intro j hj
    obtain rfl | hj := hr j hj
    · exact hlen ▸ (List.getElem?_eq_some_iff.mp he).1
    · exact hlen ▸ h.running j hj
  · intro j x hj hx hm
    change (m.chans.set k e')[j]? = some x at hx
    rw [getElem?_set he] at hx
    split at hx
    · rename_i hjk
      cases hx
      subst hjk
      exact hrm hj hm
    · rename_i hjk
      obtain ⟨i, hi⟩ := h.leaving j x ((hr j hj).resolve_left hjk) hx hm
      exact ⟨i, hl' i j hjk hi⟩

theorem Sound.set (he : m.chans[k]? = some e)
    (hl : ∀ i j, l.slot i = some j → m.chanList.slot i = some j)
    (hl' : ∀ i j, j ≠ k → m.chanList.slot i = some j → l.slot i = some j) (hk : e'.Kept l m.pc k)
    (hrm : m.pc.running = some k → .remove ∈ e'.loop → ∃ i, l.slot i = some k) :
    Sound { m.setChan k e' with chanList := l } :=
  h.update he hl hl' hk (fun j x _ hx => (h.chan j x hx).shrink fun i hi => hl i j hi)
    (fun _ hj => .inr hj) (Subset.refl _) (.refl _) hrm

theorem Sound.setChan (he : m.chans[k]? = some e)
    (hk : e'.Kept m.chanList m.pc k) (hrm : .remove ∈ e'.loop → .remove ∈ e.loop) :
    (m.setChan k e').Sound :=
  h.set he (fun _ _ hi => hi) (fun _ _ _ hi => hi) hk
    fun hr hm => h.leaving k e hr he (hrm hm)

theorem Sound.not_mem_todo (hr : m.pc.running = some k) : k ∉ m.pc.todo := by
  have hn := h.nodup
  cases hpc : m.pc with
  | close x j ks =>
    rw [hpc] at hr hn
    cases hr
    exact (nodup_cons.mp hn).1
  | drop x ks =>
    rw [hpc] at hr
    cases hr
  | _ =>
    intro hk
    cases hk

theorem Sound.dropped_lt (hk : k ∈ m.pc.dropped) : k < m.chans.length := by
  cases hpc : m.pc with
  | close x j ks =>
    rw [hpc] at hk
    obtain rfl | hk := mem_cons.mp hk
    · exact h.running k (by rw [hpc]; rfl)
    · exact h.todo k (by rw [hpc]; exact hk)
  | drop x ks => exact h.todo k (by rw [hpc] at hk ⊢; exact hk)
  | _ =>
    rw [hpc] at hk
    cases hk

theorem Sound.newChannel (hlen : m.chanList.chans.length < 2 ^ 32)
    {ch : Nat → Channel} (hi : ∀ i, (ch i).localId = i) (ho : ∀ i, (ch i).msg.closed = false)
    (hr : ∀ i, (ch i).incomingRequests.closed = false) : (m.newChannel ch).Sound := by
  obtain ⟨i, hid, hle, hs, hnew, hold⟩ := m.chanList.slot_add m.chans.length
  have hlt : ∀ j k, m.chanList.slot j = some k → k ≠ m.chans.length :=
    fun j k hj => Nat.ne_of_lt (h.slots j k hj)
  -- the slots of the old channels are what they were
  have hslot : ∀ j k, (m.chanList.add m.chans.length).2.slot j = some k → k ≠ m.chans.length →
      m.chanList.slot j = some k := by
    intro j k hj hk
    by_cases hji : j = i
    · subst hji
      rw [hnew] at hj
      exact absurd (Option.some.inj hj).symm hk
    · exact hold j hji ▸ hj
  have hlength : (m.newChannel ch).chans.length = m.chans.length + 1 := by
    simp [Mux.newChannel]
  refine ⟨?_, ?_, ?_, ?_, ?_, ?_, h.nodup⟩
  · intro k e he
    obtain hk | hk := Nat.lt_or_ge k m.chans.length
    · change (m.chans ++ _)[k]? = some e at he
      rw [getElem?_append_left hk] at he
      exact (h.chan k e he).shrink fun j hj => hslot j k hj (Nat.ne_of_lt hk)
    change (m.chans ++ _)[k]? = some e at he
    rw [getElem?_append_right hk] at he
    have hz : k - m.chans.length = 0 := by
      by_contra hz
      rw [getElem?_eq_none (by simp; omega)] at he
      cases he
    have hkl : k = m.chans.length := by omega
    rw [hz] at he
    cases he
    subst hkl
    refine ⟨fun _ => rfl, .of_nil rfl, ?_, ?_, ?_, ?_⟩
    · intro j hj
      have hji : j = i := by
        by_contra hji
        rw [show (m.newChannel ch).chanList = (m.chanList.add m.chans.length).2 from rfl,
          hold j hji] at hj
        exact hlt j _ hj rfl
      refine ⟨?_, ⟨ho _, hr _⟩, fun op hop => by cases hop⟩
      change (ch _).localId = j
      rw [hi, hid, hji, Go.u32_of_lt (by omega)]
    · intro hm
      cases hm
    · intro hk
      exact absurd (h.todo _ hk) (Nat.lt_irrefl _)
    · intro x ks hpc
      have hrun : m.pc.running = some m.chans.length := by
        rw [show m.pc = .close x m.chans.length ks from hpc]
        rfl
      exact absurd (h.running _ hrun) (Nat.lt_irrefl _)
  · intro j k hj
    rw [hlength]
    by_cases hk : k = m.chans.length
    · omega
    · have := h.slots j k (hslot j k hj hk)
      omega
  · intro k hk
    have := h.running k hk
    omega
  · intro k e hk he hm
    change (m.chans ++ _)[k]? = some e at he
    rw [getElem?_append_left (h.running k hk)] at he
    obtain ⟨j, hj⟩ := h.leaving k e hk he hm
    have hji : j ≠ i := by
      rintro rfl
      cases hs.symm.trans hj
    exact ⟨j, (hold j hji).trans hj⟩
  · intro k hk
    have := h.todo k hk
    omega
  · intro k hk j hj
    exact h.unlisted k hk j (hslot j k hj (Nat.ne_of_lt (h.dropped_lt hk)))

theorem Sound.loop_nil (hp : m.pc.running = none) (he : m.chans[k]? = some e) : e.loop = [] :=
  (h.chan k e he).idle (by simp [hp])

theorem Sound.exists_of_slot (hi : m.chanList.slot i = some k) : ∃ e, m.chans[k]? = some e :=
  ⟨_, getElem?_eq_getElem (h.slots i k hi)⟩

theorem Sound.slot_inj (hi : m.chanList.slot i = some k)
    (hj : m.chanList.slot j = some k) : i = j := by
  obtain ⟨e, he⟩ := h.exists_of_slot hi
  exact ((h.chan k _ he).listed i hi).1.symm.trans ((h.chan k _ he).listed j hj).1

theorem Sound.deliver (hp : m.pc = .top) (hk : m.chanList.slot i = some k)
    (msg : ChanMsg) : (m.deliver k msg).Sound := by
  obtain ⟨e, he⟩ := h.exists_of_slot hk
  have hkept := h.chan k e he
  obtain ⟨hid, hopen, -⟩ := hkept.listed i hk
  rw [deliver_eq he]
  refine h.update he (fun _ _ hi => hi) (fun _ _ _ hi => hi) ?_ ?_ ?_ (nil_subset _)
    (nil_sublist _) fun _ _ => ⟨i, hk⟩
  · refine ⟨fun hr => absurd rfl hr, .of_open hopen (Op.before_handlePacket msg), ?_, ?_, ?_, ?_⟩
    · intro i' hi'
      exact ⟨(hkept.listed i' hi').1, hopen, fun op hop hcl => Op.remove_mem_of_closes hop hcl⟩
    · intro hrm
      cases msg with
      | close => exact .inl ⟨suffix_rfl, fun op hop => .inl (.tail _ (.tail _ hop))⟩
      | openFailure f => exact .inr ⟨f, mem_append_right _ mem_cons_self⟩
      | _ => simp [receive, Op.handlePacket] at hrm
    · intro ht
      cases ht
    · intro y ys hpc
      cases hpc
  · intro j x hj hx
    refine (h.chan j x hx).goto (fun _ => h.loop_nil (by rw [hp]; rfl) hx) ?_ ?_
    · simpa [MuxPc.running] using Ne.symm hj
    · exact fun ht => absurd ht not_mem_nil
  · intro j hj
    cases hj
    exact .inl rfl

theorem Sound.leave (hp : m.pc.running = none) (cause : Err) : Sound
    { m with pc := .drop cause m.chanList.dropAll.1, chanList := m.chanList.dropAll.2 } := by
  refine ⟨?_, ?_, ?_, ?_, ?_, ?_, ?_⟩
  · intro k e he
    have hk := h.chan k e he
    refine ⟨fun _ => h.loop_nil hp he, hk.tame, ?_, hk.leaving, ?_, ?_⟩
    · intro i hi
      cases hi
    · intro ht
      obtain ⟨i, hi⟩ := ChanList.mem_dropAll.mp ht
      exact (hk.listed i hi).2.1
    · intro x ks hpc
      cases hpc
  · intro i k hi
    cases hi
  · intro k hk
    cases hk
  · intro k e hk
    cases hk
  · intro k hk
    obtain ⟨i, hi⟩ := ChanList.mem_dropAll.mp hk
    exact h.slots i k hi
  · intro k hk i hi
    cases hi
  · exact ChanList.nodup_dropAll fun i j k hi hj => h.slot_inj hi hj

theorem Sound.drop (hp : m.pc = .drop cause (k :: ks)) (he : m.chans[k]? = some e) :
    ((m.setChan k { e with loop := Op.close }).goto (.close cause k ks)).Sound := by
  have hn := h.nodup
  have hun := h.unlisted
  rw [hp] at hn hun
  have hkept := h.chan k e he
  have hopen : e.Open := hkept.todo (by rw [hp]; exact mem_cons_self)
  have hrm : .remove ∉ Op.close := by decide
  refine h.update he (fun _ _ hi => hi) (fun _ _ _ hi => hi) ?_ ?_ ?_ ?_ (by rw [hp]; exact .refl _)
    fun _ hm => absurd hm hrm
  · exact ⟨fun hr => absurd rfl hr, .of_open hopen Op.before_close,
      fun i hi => absurd hi (hun k mem_cons_self i), fun hm => absurd hm hrm,
      fun ht => absurd ht (nodup_cons.mp hn).1, fun _ _ _ => suffix_rfl⟩
  · intro j x hj hx
    refine (h.chan j x hx).goto (fun _ => h.loop_nil (by rw [hp]; rfl) hx) ?_ ?_
    · simpa [MuxPc.running] using Ne.symm hj
    · rw [hp]
      exact .tail _
  · intro j hj
    cases hj
    exact .inl rfl
  · rw [hp]
    exact subset_cons_self _ _

theorem Sound.closed (hp : m.pc = .close cause k ks)
    (he : m.chans[k]? = some e) (hl : e.loop = []) : (m.goto (.drop cause ks)).Sound := by
  apply h.goto
  · intro j x hj hx
    rw [hp] at hj
    cases hj
    cases he.symm.trans hx
    exact hl
  · rfl
  · rw [hp]
    exact sublist_cons_self _ _
  · rw [hp]
    exact Subset.refl _

theorem Sound.reads (hlen : m.chanList.chans.length < 2 ^ 32) (hp : m.pc = .top)
    (hr : Reads m p m') : m'.Sound := by
  have hidle : m.pc.running = none := by rw [hp]; rfl
  cases hr with
  | error | refuse | request | response => exact h.goto_of_idle hidle rfl rfl
  | offer msg hl hu =>
    refine (h.newChannel hlen ?_ ?_ ?_).goto_of_idle hidle rfl rfl <;> exact fun _ => rfl
  | handle hk => exact h.deliver hp hk _

end

/-- Channel `k` is in the list of a mux that is in its loop, or it is to be closed, or is being
closed or closed, unless the peer has refused it. -/
def Follows (m : Mux ι) (k : Nat) : Prop :=
  ∃ e, m.chans[k]? = some e ∧
    (m.pc.looping = true ∧ (∃ i, m.chanList.slot i = some k) ∨ k ∈ m.pc.todo ∨ e.Ending ∨ e.Refused)

theorem Follows.congr (hf : m.Follows k) (hc : m'.chans = m.chans)
    (hl : m'.chanList = m.chanList) (hloop : m.pc.looping = true → m'.pc.looping = true)
    (ht : k ∈ m.pc.todo → k ∈ m'.pc.todo) : m'.Follows k := by
  obtain ⟨e, he, h⟩ := hf
  refine ⟨e, hc ▸ he, ?_⟩
  obtain ⟨h₁, h₂⟩ | h | h := h
  · exact .inl ⟨hloop h₁, hl ▸ h₂⟩
  · exact .inr (.inl (ht h))
  · exact .inr (.inr h)

theorem Follows.setChan (hf : m.Follows k) (he : m.chans[j]? = some e)
    (hE : e.Ending → e'.Ending) (hR : e.Refused → e'.Refused) : (m.setChan j e').Follows k := by
  obtain ⟨x, hx, h⟩ := hf
  by_cases hk : k = j
  · subst hk
    cases he.symm.trans hx
    refine ⟨e', (getElem?_set he e' k).trans (if_pos rfl), ?_⟩
    exact h.imp id (Or.imp id (Or.imp hE hR))
  · exact ⟨x, (getElem?_set he e' k).trans ((if_neg hk).trans hx), h⟩

theorem Follows.user (hf : m.Follows k) (he : m.chans[j]? = some e) (ha : e.Aside e') :
    (m.setChan j e').Follows k :=
  hf.setChan he (fun hE => hE.of_keeps ha.keeps ha.loop) ha.refused

theorem Follows.newChannel (hf : m.Follows k) (ch : Nat → Channel) :
    (m.newChannel ch).Follows k := by
  obtain ⟨i, -, -, hs, -, hold⟩ := m.chanList.slot_add m.chans.length
  obtain ⟨e, he, h⟩ := hf
  obtain ⟨hlt, -⟩ := List.getElem?_eq_some_iff.mp he
  refine ⟨e, (List.getElem?_append_left hlt).trans he, h.imp ?_ id⟩
  rintro ⟨hloop, j, hj⟩
  refine ⟨hloop, j, (hold j ?_).trans hj⟩
  rintro rfl
  cases hs.symm.trans hj

theorem Follows.reads (hf : m.Follows k) (h : m.Sound) (hp : m.pc = .top) (hr : Reads m p m') :
    m'.Follows k := by
  have hgoto : ∀ {m₁ : Mux ι}, m₁.Follows k → m₁.pc = .top → ∀ q : MuxPc, q.looping = true →
      (m₁.goto q).Follows k := by
    intro m₁ h₁ hp₁ q hq
    refine h₁.congr rfl rfl (fun _ => hq) ?_
    intro hk
    rw [hp₁] at hk
    cases hk
  cases hr with
  | error | refuse | request | response => exact hgoto hf hp _ rfl
  | offer msg hl hu => exact hgoto (hf.newChannel _) hp _ rfl
  | @handle msg i j hj =>
    obtain ⟨e, he⟩ := h.exists_of_slot hj
    obtain ⟨x, hx, hcases⟩ := hf
    by_cases hk : k = j
    · subst hk
      exact ⟨e.receive msg, (getElem?_deliver he msg k).trans (if_pos rfl), .inl ⟨rfl, i, hj⟩⟩
    refine ⟨x, (getElem?_deliver he msg k).trans ((if_neg hk).trans hx), ?_⟩
    obtain ⟨-, hl⟩ | ht | hc := hcases
    · exact .inl ⟨rfl, hl⟩
    · rw [hp] at ht
      cases ht
    · exact .inr (.inr hc)

theorem Sound.slot_remove (h : m.Sound) (hlen : m.chanList.chans.length < 2 ^ 32)
    (he : m.chans[j]? = some e) (hj : m.Listed j) :
    (m.chanList.remove e.ch.localId).slot i = some k ↔ m.chanList.slot i = some k ∧ k ≠ j := by
  obtain ⟨i₀, hi₀⟩ := hj
  rw [((h.chan j e he).listed i₀ hi₀).1]
  by_cases hi : i = i₀
  · subst hi
    rw [ChanList.slot_remove_self hlen]
    refine ⟨nofun, ?_⟩
    rintro ⟨hs, hk⟩
    exact absurd (Option.some.inj (hs.symm.trans hi₀)) hk
  · rw [ChanList.slot_remove_of_ne hi]
    refine ⟨fun hs => ⟨hs, ?_⟩, And.left⟩
    rintro rfl
    exact hi (h.slot_inj hs hi₀)

theorem Sound.looping_of_err (h : m.Sound) (hp : m.pc.running = some j) (he : m.chans[j]? = some e)
    (hl : e.loop = op :: ops) (hf : op.Faults e.ch c (.err y)) : m.pc.looping = true := by
  cases hpc : m.pc with
  | handle i => rfl
  | close y' i ks =>
    rw [hpc] at hp
    cases hp
    have hsuf := (h.chan j e he).closing y' ks hpc
    rw [hl] at hsuf
    have hop : op ∈ Op.close := hsuf.subset mem_cons_self
    exact absurd hf (Op.not_err_of_close (.tail _ (.tail _ hop)) _ _ y)
  | _ =>
    rw [hpc] at hp
    cases hp

variable [DecidableEq ι]

theorem Sound.run (h : m.Sound) (hlen : m.chanList.chans.length < 2 ^ 32)
    (hp : m.pc.running = some k) (he : m.chans[k]? = some e) (hs : e.Steps (.loop c) e' eff) :
    ((m.setChan k e').absorb eff).Sound ∧ ∀ text, eff ≠ some (.fault (.panic text)) := by
  cases hs with
  | @loop op ops p choice hl hpf =>
    have hk := h.chan k e he
    have hn := h.not_mem_todo hp
    by_cases hop : op = .remove
    · subst hop
      have heff : p.effect = some (.remove e.ch.localId) := by
        cases hpf with
        | fault hf => cases hf
        | remove => rfl
      rw [heff]
      have hslot {i j} := h.slot_remove (i := i) (k := j) hlen he
        (h.leaving k e hp he (hl ▸ mem_cons_self))
      refine ⟨h.set he (fun _ _ hi => (hslot.mp hi).1) (fun _ _ hj hi => hslot.mpr ⟨hi, hj⟩)
        (hk.perform_remove hlen hp hn hl hpf) ?_, by simp⟩
      · intro _ hm
        have ho := hk.tame.order
        rw [hl] at ho
        change _ ∈ p.rest ops at hm
        obtain ⟨-, hr⟩ | hr | ⟨⟨y, n, b, hop⟩, -⟩ := hpf.rest_cases ops
        · rw [hr] at hm
          cases hm
        · rw [hr] at hm
          exact absurd rfl ((rel_of_pairwise_cons ho hm).2.2 (.inr rfl))
        · cases hop
    · have hset := h.setChan he (hk.perform hp hn hl hpf hop) (remove_mem_of_performed hpf hl)
      obtain heff | heff | ⟨hr, -⟩ | ⟨f, hf, heff⟩ := hpf.effect_cases
      · rw [heff]
        exact ⟨hset, by simp⟩
      · rw [heff]
        exact ⟨hset, by simp⟩
      · exact absurd hr hop
      rw [heff]
      cases f with
      | panic text => exact absurd hf (hk.tame.no_panic hl _ text)
      | err x =>
        refine ⟨hset.goto ?_ rfl (nil_sublist _) (nil_subset _), by simp⟩
        intro j y hj hy
        cases hp.symm.trans hj
        change (m.chans.set k _)[k]? = some y at hy
        rw [getElem?_set he, if_pos rfl] at hy
        cases hy
        simp [performed, Performed.rest, heff]

variable [Fintype ι]

theorem Sound.loopStep (h : m.Sound) (hlen : m.chanList.chans.length < 2 ^ 32)
    (hs : LoopStep m choice m' out) : m'.Sound := by
  cases hs with
  | refuse hp ho ho' | again hp hr => exact h.goto_of_idle (by rw [hp]; rfl) rfl rfl
  | offer hp hl | request hp hl | response hp hl =>
    exact (h.goto_of_idle (q := .returned none) (by rw [hp]; rfl) rfl rfl).congr rfl rfl rfl
  | stopped hp hs =>
    refine h.goto_of_idle ?_ rfl rfl
    cases hpc : m.pc <;> rw [hpc] at hp <;> first | rfl | cases hp
  | run hp he hc hs => exact (h.run hlen hp he (Endpoint.step_cases hs)).1
  | handled hp he hl =>
    refine h.goto ?_ rfl (nil_sublist _) (nil_subset _)
    intro j x hj hx
    rw [hp] at hj
    cases hj
    cases he.symm.trans hx
    exact hl
  | closed hp he hl => exact h.closed hp he hl
  | leave hp ht => exact h.leave (by rw [hp]; rfl) _
  | drop hp he => exact h.drop hp he
  | closeQueues hp =>
    exact (h.goto_of_idle (q := .closeConn _) (by rw [hp]; rfl) rfl rfl).congr rfl rfl rfl
  | closeConn hp =>
    exact (h.goto_of_idle (q := .setErr _) (by rw [hp]; rfl) rfl rfl).congr rfl rfl rfl
  | setErr hp => exact (h.goto_of_idle (q := .done) (by rw [hp]; rfl) rfl rfl).congr rfl rfl rfl

end Mux

namespace Endpoint

variable {ι : Type} [DecidableEq ι] {e e' : Endpoint ι}

theorem Steps.frame (h : e.Steps a e' eff) (ha : a.user = true) : e.Aside e' := by
  cases h with
  | call ho hi hm => exact ⟨rfl, .refl _, rfl, rfl, rfl, prefix_append _ _⟩
  | run hr =>
    obtain ⟨hi, -, -, hm, hq⟩ := hr.frame
    refine ⟨rfl, hr.keeps, hi, hm, congrArg Queue.closed hq, ?_⟩
    exact (prefix_append _ _).trans (prefix_append _ _)
  | loop hl hp => cases ha
  | deliver hl hm => cases ha
  | opened hm ho hd | takeRequest hr =>
    exact ⟨rfl, ⟨id, id, id, id, id, id, id, id⟩, rfl, rfl, rfl, prefix_rfl⟩
  | refused hm ho hd =>
    exact ⟨rfl, ⟨id, id, id, id, id, id, id, fun _ => rfl⟩, rfl, rfl, rfl, prefix_rfl⟩
  | halt =>
    exact ⟨rfl, ⟨id, id, id, id, id, id, fun _ => rfl, id⟩, rfl, rfl, rfl, prefix_rfl⟩

theorem Steps.effect_user (h : e.Steps a e' eff) (ha : a.user = true) :
    eff = none ∨ ∃ m, eff = some (.send m) := by
  cases h with
  | run hr => exact hr.effect
  | loop hl hp => cases ha
  | _ => exact .inl rfl

theorem Decides.frame {ι : Type} {e e' : Endpoint ι} (h : e.Decides e' msg) : e.Aside e' := by
  cases h with
  | accept hd hs =>
    exact ⟨rfl, ⟨id, id, id, id, id, id, id, id⟩, rfl, rfl, rfl, prefix_append _ _⟩
  | reject hd hs =>
    exact ⟨rfl, ⟨id, id, id, id, id, id, id, fun _ => rfl⟩, rfl, rfl, rfl,
      prefix_append _ _⟩
  | late hd hs hi =>
    exact ⟨rfl, ⟨id, id, id, id, id, id, id, hi⟩, rfl, rfl, rfl, prefix_rfl⟩

end Endpoint

namespace Mux

variable {ι : Type} [DecidableEq ι] {m m' : Mux ι} {e e' : Endpoint ι} {k : Nat}

theorem absorb_user (hs : e.Steps a e' eff) (ha : a.user = true) : m.absorb eff = m := by
  obtain rfl | ⟨msg, rfl⟩ := hs.effect_user ha <;> rfl

theorem Sound.user (h : m.Sound) (he : m.chans[k]? = some e) (hs : e.Steps a e' eff)
    (ha : a.user = true) : ((m.setChan k e').absorb eff).Sound := by
  rw [absorb_user hs ha]
  exact h.setChan he ((h.chan k e he).frame (hs.frame ha)) ((hs.frame ha).1 ▸ id)

variable [Fintype ι]

theorem Sound.step (h : m.Sound) (hlen : m.chanList.chans.length < 2 ^ 32)
    (hs : m.Steps a m' out) : m'.Sound := by
  cases hs with
  | packet hp hr => exact h.reads hlen hp hr
  | readError hp => exact h.goto_of_idle (by rw [hp]; rfl) rfl rfl
  | loop hs => exact h.loopStep hlen hs
  | openChannel =>
    have hnew : (m.newChannel .openChannel).Sound :=
      h.newChannel hlen (fun _ => rfl) (fun _ => rfl) (fun _ => rfl)
    exact hnew.congr rfl rfl rfl
  | abandon hk | takeChannel hq | takeRequest hq | takeResponse hq | halt | cancel =>
    exact h.congr rfl rfl rfl
  | decide ha hk he hd => exact h.setChan he ((h.chan _ _ he).frame hd.frame) (hd.frame.1 ▸ id)
  | opened hk he hs => exact Sound.user (m := m.stopWaiting _) (h.congr rfl rfl rfl) he hs rfl
  | chan ha ho he hs => exact h.user he hs ha

theorem Sound.not_panicked (h : m.Sound) (hlen : m.chanList.chans.length < 2 ^ 32)
    (hs : m.Steps a m' out) (hp : ∀ text, m.pc ≠ .panicked text) :
    ∀ text, m'.pc ≠ .panicked text := by
  intro text
  cases hs with
  | packet hp' hr => cases hr <;> exact nofun
  | readError hp' => exact nofun
  | loop hs =>
    cases hs with
    | @run k e choice c e' eff hp' he hc hs =>
      have hn := (h.run hlen hp' he (Endpoint.step_cases hs)).2
      unfold absorb
      split
      · exact hp text
      · exact nofun
      · exact absurd rfl (hn _)
      · exact hp text
    | _ => exact nofun
  | opened hk he hs =>
    rw [absorb_user hs rfl]
    exact hp text
  | chan ha ho he hs =>
    rw [absorb_user hs ha]
    exact hp text
  | _ => exact hp text

omit [Fintype ι] in
theorem Follows.run (hf : m.Follows k) (h : m.Sound)
    (hlen : m.chanList.chans.length < 2 ^ 32) (hp : m.pc.running = some j)
      (he : m.chans[j]? = some e) (hs : e.Steps (.loop c) e' eff) :
    ((m.setChan j e').absorb eff).Follows k := by
  cases hs with
  | @loop op ops p choice hl hpf =>
    have hkept := h.chan j e he
    have hE : e.Ending → (e.performed p ops).Ending := fun hE => hE.perform hkept.tame hl hpf
    have hR : e.Refused → (e.performed p ops).Refused := by
      rintro ⟨f, hf⟩
      exact ⟨f, mem_append_left _ hf⟩
    have hset := hf.setChan he hE hR
    obtain heff | heff | ⟨rfl, heff⟩ | ⟨f, hf, heff⟩ := hpf.effect_cases
    · rwa [heff]
    · rwa [heff]
    · rw [heff]
      obtain ⟨x, hx, hcases⟩ := hset
      refine ⟨x, hx, ?_⟩
      obtain ⟨hloop, i, hi⟩ | hcases := hcases
      · by_cases hkj : k = j
        · subst hkj
          change (m.chans.set k _)[k]? = some x at hx
          rw [getElem?_set he, if_pos rfl] at hx
          cases hx
          exact .inr (.inr ((hkept.leaving (hl ▸ mem_cons_self)).imp hE hR))
        · have hlisted := h.leaving j e hp he (hl ▸ mem_cons_self)
          exact .inl ⟨hloop, i, (h.slot_remove hlen he hlisted).mpr ⟨hi, hkj⟩⟩
      · exact .inr hcases
    · rw [heff]
      cases f with
      | panic text => exact absurd hf (hkept.tame.no_panic hl _ text)
      | err y =>
        refine hset.congr rfl rfl (fun _ => rfl) ?_
        intro hk
        change k ∈ m.pc.todo at hk
        rw [MuxPc.todo_of_looping (h.looping_of_err hp he hl hf)] at hk
        cases hk

theorem Follows.loopStep (hf : m.Follows k) (h : m.Sound)
    (hlen : m.chanList.chans.length < 2 ^ 32) (hs : LoopStep m choice m' out) : m'.Follows k := by
  have hgoto : ∀ q : MuxPc, q.looping = true → m.pc.todo = [] → (m.goto q).Follows k := by
    intro q hq ht
    refine hf.congr rfl rfl (fun _ => hq) ?_
    intro hk
    rw [ht] at hk
    cases hk
  have hdone : ∀ {m₁ : Mux ι}, m₁.chans = m.chans → m₁.chanList = m.chanList →
      m.pc.looping = false → (k ∈ m.pc.todo → k ∈ m₁.pc.todo) → m₁.Follows k := by
    intro m₁ hc hl hq ht
    refine hf.congr hc hl ?_ ht
    intro hk
    cases hq.symm.trans hk
  cases hs with
  | refuse hp ho ho' | handled hp he hl | again hp hr => exact hgoto _ rfl (by rw [hp]; rfl)
  | offer hp hl | request hp hl | response hp hl =>
    exact (hgoto (.returned none) rfl (by rw [hp]; rfl)).congr rfl rfl id id
  | stopped hp hs =>
    refine hgoto _ rfl ?_
    cases hpc : m.pc <;> rw [hpc] at hp <;> first | rfl | cases hp
  | run hp he hc hs => exact hf.run h hlen hp he (Endpoint.step_cases hs)
  | closed hp he hl | closeQueues hp | closeConn hp | setErr hp =>
    exact hdone rfl rfl (by rw [hp]; rfl) (by rw [hp]; exact id)
  | leave hp ht =>
    obtain ⟨e, he, ⟨-, i, hi⟩ | ht | hc⟩ := hf
    · exact ⟨e, he, .inr (.inl (ChanList.mem_dropAll.mpr ⟨i, hi⟩))⟩
    · rw [hp] at ht
      cases ht
    · exact ⟨e, he, .inr (.inr hc)⟩
  | @drop cause j ks e choice hp he =>
    obtain ⟨x, hx, hcases⟩ := hf
    by_cases hk : k = j
    · subst hk
      refine ⟨{ e with loop := Op.close }, (getElem?_set he _ k).trans (if_pos rfl), ?_⟩
      refine .inr (.inr (.inl ⟨?_, fun op hop => .inl hop⟩))
      exact (suffix_cons _ _).trans (suffix_cons _ _)
    refine ⟨x, (getElem?_set he _ k).trans ((if_neg hk).trans hx), ?_⟩
    obtain ⟨hloop, -⟩ | ht | hc := hcases
    · rw [hp] at hloop
      cases hloop
    · rw [hp] at ht
      exact .inr (.inl ((mem_cons.mp ht).resolve_left hk))
    · exact .inr (.inr hc)

theorem Follows.step (hf : m.Follows k) (h : m.Sound) (hlen : m.chanList.chans.length < 2 ^ 32)
    (hs : m.Steps a m' out) : m'.Follows k := by
  cases hs with
  | packet hp hr => exact hf.reads h hp hr
  | readError hp =>
    refine hf.congr rfl rfl (fun _ => rfl) ?_
    intro hk
    rw [hp] at hk
    cases hk
  | loop hs => exact hf.loopStep h hlen hs
  | openChannel => exact (hf.newChannel Channel.openChannel).congr rfl rfl id id
  | decide ha hk he hd => exact hf.user he hd.frame
  | @opened j e e' eff hk he hs =>
    rw [absorb_user hs rfl]
    exact Follows.user (m := m.stopWaiting j) (hf.congr rfl rfl id id) he (hs.frame rfl)
  | chan ha ho he hs =>
    rw [absorb_user hs ha]
    exact hf.user he (hs.frame ha)
  | _ => exact hf.congr rfl rfl id id

end Mux

end XCryptoSsh
