import XCryptoSsh.MuxChannels

namespace XCryptoSsh
set_option autoImplicit true

open Machine List Endpoint

def ChanMsg.confirms : ChanMsg → Bool
  | .openConfirm .. => true
  | _ => false

namespace Endpoint

variable {ι : Type} {e e' : Endpoint ι}

section

variable (e : Endpoint ι)

def Unused : Prop := e.opened = false → ∀ i, e.gos i = .idle

def Told : Prop :=
  .received .close ∈ e.log ∨ ∃ f, .received (.openFailure f) ∈ e.log

/-- The packet that ends the channel has been processed as far as the list of channels. -/
def Finished : Prop := e.Told ∧ .remove ∉ e.loop

/-- What the peer may send on a channel: it answers an open once, closes what it has opened only
after the answer, and replies to requests only. -/
def Expects : ChanMsg → Prop
  | .close => e.ch.direction = .inbound → e.ch.decided = true
  | .openConfirm .. | .openFailure _ => e.ch.direction = .outbound ∧ e.ch.decided = false
  | .success | .failure | .other _ => e.opened = true
  | _ => True

instance : (m : ChanMsg) → Decidable (e.Expects m)
  | .close => inferInstanceAs (Decidable (_ → _))
  | .openConfirm .. | .openFailure _ => inferInstanceAs (Decidable (_ ∧ _))
  | .success | .failure | .other _ => inferInstanceAs (Decidable (_ = _))
  | .data .. | .windowAdjust _ | .eof | .request .. | .malformed _ => .isTrue trivial

/-- Inbound and undecided, or outbound while its `openChannel` has not returned (`w`), or open. -/
def Entitled (w : Prop) : Prop :=
  e.ch.direction = .inbound ∧ e.ch.decided = false ∨ e.ch.direction = .outbound ∧ w ∨
    e.opened = true

end

/-- What is known of a channel whose peer keeps to the protocol and that was neither rejected nor
abandoned; `l` says that it is in the list. -/
structure Tracked (e : Endpoint ι) (w l : Prop) : Prop where
  fresh : e.Unused
  inbound : e.ch.direction = .inbound → e.ch.decided = e.opened
  calm : e.ch.direction = .inbound → e.opened = false → e.ch.sentClose = false ∧
    ∀ op ∈ e.loop, op ≠ .sendClose ∧ op ≠ .markSentClose
  outbound : e.ch.direction = .outbound → e.opened = false → w ∨ e.Finished
  items : e.opened = false → ∀ x ∈ e.ch.msg.items, x.confirms = true ∨ e.Finished
  respond : .respond ∈ e.loop → e.ch.direction = .outbound ∧ e.ch.decided = false
  first : .respond ∉ e.loop.tail
  pushes : ∀ x, .pushMsg x ∈ e.loop → e.opened = true ∨ x.confirms = true ∨ e.Told
  leaving : .remove ∈ e.loop → e.Told ∧ ∃ pre post, e.loop = pre ++ .remove :: post ∧
    (pre = [] ∨ pre = [.sendClose] ∨ pre = [.respond]) ∧ .remove ∉ post
  listed : l ↔ ¬ e.Finished

theorem Tracked.entitled (h : e.Tracked w l) : l ↔ e.Entitled w ∧ ¬ e.Finished := by
  rw [h.listed, iff_and_self]
  intro hf
  cases ho : e.opened with
  | true => exact .inr (.inr ho)
  | false =>
    cases hd : e.ch.direction with
    | inbound => exact .inl ⟨hd, (h.inbound hd).trans ho⟩
    | outbound => exact .inr (.inl ⟨hd, (h.outbound hd ho).resolve_right hf⟩)

theorem Tracked.start {ch : Channel} (hd : ch.decided = false) (hm : ch.msg.items = [])
    (hs : ch.sentClose = false)
    (hw : ch.direction = .outbound → w) (hl : l) :
    (Endpoint.start ch false [] : Endpoint ι).Tracked w l := by
  have hf : ¬ (Endpoint.start ch false [] : Endpoint ι).Finished := by
    rintro ⟨h | ⟨f, h⟩, -⟩ <;> cases h
  refine ⟨fun _ _ => rfl, fun _ => hd, ?_, fun h _ => .inl (hw h), ?_, ?_, ?_, ?_, ?_, ?_⟩
  · exact fun _ _ => ⟨hs, nofun⟩
  · intro _ x hx
    change x ∈ ch.msg.items at hx
    rw [hm] at hx
    cases hx
  · exact nofun
  · exact nofun
  · exact nofun
  · exact nofun
  · exact ⟨fun _ => hf, fun _ => hl⟩

theorem told_append (es : List Event) (h : ∀ msg, .received msg ∉ es)
    (hlog : e'.log = e.log ++ es) :
    e'.Told ↔ e.Told := by
  simp only [Told, hlog, mem_append, h, or_false]

theorem received_not_mem_events (eff : Option Effect) (msg : ChanMsg) :
    Event.received msg ∉ Effect.events eff := by
  rcases eff with _ | ⟨_ | _ | _⟩ <;> simp [Effect.events, Effect.sends]

structure Unmoved (e e' : Endpoint ι) : Prop where
  loop : e'.loop = e.loop
  told : e'.Told ↔ e.Told
  direction : e'.ch.direction = e.ch.direction
  decided : e'.ch.decided = e.ch.decided
  opened : e'.opened = e.opened
  fresh : e.opened = false → (∀ i, e'.gos i = e.gos i) ∧ e'.ch.sentClose = e.ch.sentClose ∧
    e'.ch.msg.items = e.ch.msg.items

theorem Unmoved.finished (h : Unmoved e e') : e'.Finished ↔ e.Finished := by
  rw [Finished, Finished, h.told, h.loop]

theorem Tracked.unmoved (ht : e.Tracked w l) (h : Unmoved e e') : e'.Tracked w l := by
  have hf := h.finished
  refine ⟨?_, ?_, ?_, ?_, ?_, ?_, ?_, ?_, ?_, ?_⟩
  · intro ho i
    rw [h.opened] at ho
    rw [(h.fresh ho).1 i]
    exact ht.fresh ho i
  · rw [h.direction, h.decided, h.opened]
    exact ht.inbound
  · intro hd ho
    rw [h.direction] at hd
    rw [h.opened] at ho
    rw [(h.fresh ho).2.1, h.loop]
    exact ht.calm hd ho
  · rw [h.direction, h.opened, hf]
    exact ht.outbound
  · intro ho
    rw [h.opened] at ho
    rw [(h.fresh ho).2.2, hf]
    exact ht.items ho
  · rw [h.loop, h.direction, h.decided]
    exact ht.respond
  · rw [h.loop]
    exact ht.first
  · rw [h.loop, h.opened, h.told]
    exact ht.pushes
  · rw [h.loop, h.told]
    exact ht.leaving
  · rw [hf]
    exact ht.listed

theorem Steps.unmoved [DecidableEq ι] (h : e.Steps a e' eff) (ha : a.user = true) (ho : a ≠ .opened)
    (hf : e.Unused) : Unmoved e e' := by
  cases h with
  | @call i m hop hi hm =>
    refine ⟨rfl, told_append [.called m] (by simp) rfl, rfl, rfl, rfl, ?_⟩
    intro h
    cases hop.symm.trans h
  | @run i r choice hr =>
    obtain ⟨-, hdir, hdec, -, -⟩ := hr.frame
    refine ⟨rfl, ?_, hdir, hdec, rfl, ?_⟩
    · refine told_append (Effect.events r.effect ++ Outcome.events r.returned) ?_
        (append_assoc _ _ _)
      intro msg hm
      obtain hm | hm := mem_append.mp hm
      · exact received_not_mem_events _ _ hm
      · cases hret : r.returned <;> simp [Outcome.events, hret] at hm
    · intro h
      -- no goroutine is in a method
      have hidle := hf h i
      rw [hidle] at hr
      exact (Channel.not_runs_idle hr).elim
  | loop hl hp => cases ha
  | deliver hl hm => cases ha
  | opened hm ho' hd | refused hm ho' hd => exact absurd rfl ho
  | takeRequest hr | halt => exact ⟨rfl, .rfl, rfl, rfl, rfl, fun _ => ⟨fun _ => rfl, rfl, rfl⟩⟩

theorem Steps.direction_eq [DecidableEq ι] (h : e.Steps a e' eff) :
    e'.ch.direction = e.ch.direction := by
  cases h with
  | run hr => exact hr.frame.2.1
  | loop hl hp => exact hp.localId_eq.2
  | _ => rfl

theorem Tracked.opened [Fintype ι] [DecidableEq ι] (ht : e.Tracked w l)
    (h : e.step .opened = some (e', eff)) :
    e'.Tracked False l := by
  simp only [step] at h
  split at h
  · cases h
  rename_i hn
  have hno : e.opened = false := by simpa using fun ho => hn (.inl ho)
  have hd : e.ch.direction ≠ .inbound := fun hd => hn (.inr hd)
  split at h
  · cases h
  · cases h
    exact ⟨by rintro ⟨⟩, fun h => absurd h hd, fun h => absurd h hd, by rintro _ ⟨⟩,
      by rintro ⟨⟩, ht.respond, ht.first, fun _ _ => .inl rfl, ht.leaving, ht.listed⟩
  rename_i x ms hx hm
  cases h
  have hfin : e.Finished := by
    refine (ht.items hno x (hm ▸ mem_cons_self)).resolve_left ?_
    intro hc
    cases x with
    | openConfirm i w n => exact hx i w n rfl
    | _ => cases hc
  refine ⟨ht.fresh, ht.inbound, ht.calm, fun _ _ => .inr hfin, fun _ _ _ => .inr hfin, ht.respond,
    ht.first, ht.pushes, ht.leaving, ht.listed⟩

theorem Tracked.accept (ht : e.Tracked w l) (hd : e.ch.direction = .inbound)
    (h : e.accept = some (e', msg)) : e'.Tracked w l := by
  unfold Endpoint.accept at h
  split at h
  · cases h
  rename_i hdec
  have hdec : e.ch.decided = false := by simpa using hdec
  have hno : e.opened = false := (ht.inbound hd).symm.trans hdec
  have hs := (ht.calm hd hno).1
  rw [answer_of_open (c := e.ch.accept.1) hs (by simp [Channel.accept])] at h
  cases h
  have htold : ∀ e₁ : Endpoint ι, e₁.log = e.log ++ [.sent e.ch.accept.2] →
      (e₁.Told ↔ e.Told) := fun e₁ h => told_append _ (by simp) h
  have hfin : ∀ e₁ : Endpoint ι, e₁.log = e.log ++ [.sent e.ch.accept.2] → e₁.loop = e.loop →
      (e₁.Finished ↔ e.Finished) := by
    intro e₁ h₁ h₂
    rw [Finished, Finished, htold e₁ h₁, h₂]
  refine ⟨by rintro ⟨⟩, fun _ => rfl, by rintro _ ⟨⟩, ?_, by rintro ⟨⟩, ?_, ht.first,
    fun _ _ => .inl rfl, ?_, ?_⟩
  · intro h
    exact absurd (hd.symm.trans h) (by simp)
  · intro h
    exact absurd (hd.symm.trans (ht.respond h).1) (by simp)
  · rw [htold _ rfl]
    exact ht.leaving
  · refine ht.listed.trans (not_congr (Iff.symm ?_))
    exact hfin _ rfl rfl

theorem Tracked.receive (ht : e.Tracked w l) (hl : l) (hnil : e.loop = []) (hx : e.Expects msg) :
    (e.receive msg).Tracked w l := by
  have hnf := ht.listed.mp hl
  have hnt : ¬ e.Told := fun h => hnf ⟨h, by rw [hnil]; exact not_mem_nil⟩
  have htold : (e.receive msg).Told ↔ msg = .close ∨ ∃ f, msg = .openFailure f := by
    rw [Told, not_or] at hnt
    obtain ⟨hc, hf⟩ := hnt
    have hf' : ∀ f, .received (.openFailure f) ∉ e.log := fun f h => hf ⟨f, h⟩
    simp [Told, Endpoint.receive, hc, hf', eq_comm]
  have hnf' : ¬ (e.receive msg).Finished := by
    rintro ⟨h, hr⟩
    apply hr
    obtain rfl | ⟨f, rfl⟩ := htold.mp h
    · exact .tail _ (.head _)
    · exact .tail _ (.head _)
  refine ⟨ht.fresh, ht.inbound, ?_, ?_, ?_, ?_, ?_, ?_, ?_, ?_⟩
  · intro hd ho
    refine ⟨(ht.calm hd ho).1, ?_⟩
    have hc : msg ≠ .close := by
      rintro rfl
      have := hx hd
      rw [ht.inbound hd] at this
      exact Bool.false_ne_true (ho.symm.trans this)
    change ∀ op ∈ Op.handlePacket msg, _
    cases msg with
    | close => exact absurd rfl hc
    | _ => simp [Op.handlePacket]
  · exact fun hd ho => .inl ((ht.outbound hd ho).resolve_right hnf)
  · exact fun ho x hi => .inl ((ht.items ho x hi).resolve_right hnf)
  · change .respond ∈ Op.handlePacket msg → _
    cases msg with
    | openConfirm i w n | openFailure f => exact fun _ => hx
    | _ => simp [Op.handlePacket, Op.close]
  · change .respond ∉ (Op.handlePacket msg).tail
    cases msg <;> simp [Op.handlePacket, Op.close]
  · intro x hp
    change .pushMsg x ∈ Op.handlePacket msg at hp
    cases msg with
    | openFailure f => exact .inr (.inr (htold.mpr (.inr ⟨f, rfl⟩)))
    | openConfirm i w n =>
      simp only [Op.handlePacket, mem_cons, reduceCtorEq, Op.pushMsg.injEq, not_mem_nil,
        or_false, false_or] at hp
      exact .inr (.inl (hp ▸ rfl))
    | success | failure | other tag => exact .inl hx
    | _ => simp [Op.handlePacket, Op.close] at hp
  · intro hr
    change .remove ∈ Op.handlePacket msg at hr
    cases msg with
    | close =>
      exact ⟨htold.mpr (.inl rfl), [.sendClose], Op.close, rfl, .inr (.inl rfl), by decide⟩
    | openFailure f =>
      exact ⟨htold.mpr (.inr ⟨f, rfl⟩), [.respond], [.pushMsg (.openFailure f)], rfl,
        .inr (.inr rfl), by simp⟩
    | _ => simp [Op.handlePacket] at hr
  · exact ⟨fun _ => hnf', fun _ => hl⟩

theorem told_performed (p : Performed) (ops : List Op) : (e.performed p ops).Told ↔ e.Told :=
  told_append _ (received_not_mem_events p.effect) rfl

theorem Tracked.remove_mem (ht : e.Tracked w l) (hl : e.loop = op :: ops)
    (hp : Performs e.ch choice op p) (hop : op ≠ .remove) :
    .remove ∈ p.rest ops ↔ .remove ∈ e.loop := by
  constructor
  · exact remove_mem_of_performed hp hl
  intro hr
  obtain ⟨-, pre, post, hloop, hpre, -⟩ := ht.leaving hr
  rw [hl] at hloop
  have hmem : .remove ∈ ops := by
    rw [hl] at hr
    exact (mem_cons.mp hr).resolve_left (Ne.symm hop)
  obtain ⟨⟨f, heff⟩, -⟩ | hrest | ⟨-, x, d, hrest⟩ := hp.rest_cases ops
  · exfalso
    obtain rfl | rfl | rfl := hpre
    · exact hop (cons.inj hloop).1
    · cases (cons.inj hloop).1
      cases hp with
      | fault h => cases h
      | sendClose h | closeSkipped h => cases heff
    · cases (cons.inj hloop).1
      obtain ⟨hd, hdec⟩ := ht.respond (hl ▸ mem_cons_self)
      cases hp with
      | fault h => simp [Op.Faults, hd, hdec] at h
      | respond h => cases heff
  · rwa [hrest]
  · rw [hrest]
    exact .tail _ hmem

theorem Tracked.finished_performed (ht : e.Tracked w l) (hl : e.loop = op :: ops)
    (hp : Performs e.ch choice op p) (hop : op ≠ .remove) :
    (e.performed p ops).Finished ↔ e.Finished := by
  rw [Finished, Finished, told_performed]
  exact and_congr_right fun _ => not_congr (ht.remove_mem hl hp hop)

theorem Tracked.items_performed (ht : e.Tracked w l) (hl : e.loop = op :: ops)
    (hp : Performs e.ch choice op p) (ho : e.opened = false) (hx : x ∈ p.ch.msg.items) :
    x.confirms = true ∨ e.Finished := by
  by_cases hold : x ∈ e.ch.msg.items
  · exact ht.items ho x hold
  cases hp with
  | @pushMsg y hc hlen =>
    have hxy : x = y := by
      obtain h | h := mem_append.mp hx
      · exact absurd h hold
      · exact mem_singleton.mp h
    subst hxy
    obtain h | h | h := ht.pushes x (hl ▸ mem_cons_self)
    · cases ho.symm.trans h
    · exact .inl h
    refine .inr ⟨h, ?_⟩
    intro hr
    obtain ⟨-, pre, post, hloop, hpre, -⟩ := ht.leaving hr
    rw [hl] at hloop
    obtain rfl | rfl | rfl := hpre <;> cases (cons.inj hloop).1
  | store =>
    rw [Channel.storeData_eq] at hx
    exact absurd hx hold
  | _ => exact absurd hx hold

theorem Tracked.perform (ht : e.Tracked w l) (hl : e.loop = op :: ops)
    (hp : Performs e.ch choice op p) (hop : op ≠ .remove) : (e.performed p ops).Tracked w l := by
  have hfin := ht.finished_performed hl hp hop
  have htold := told_performed (e := e) p ops
  have hdir := hp.localId_eq.2
  have hmem : ∀ o ∈ p.rest ops, o ∈ e.loop ∨ ∃ x d, o = .store x d := by
    intro o ho
    rw [hl]
    exact (hp.mem_of_rest ho).imp (.tail op) id
  have hrespond : .respond ∉ p.rest ops := by
    intro h
    have := ht.first
    rw [hl] at this
    exact this ((hp.mem_of_rest h).resolve_right (by simp))
  refine ⟨ht.fresh, ?_, ?_, ?_, ?_, ?_, ?_, ?_, ?_, ?_⟩
  · intro hd
    change p.ch.direction = _ at hd
    rw [hdir] at hd
    change p.ch.decided = e.opened
    rw [← ht.inbound hd]
    cases hp with
    | respond h hdec => exact absurd (hd.symm.trans h) (by simp)
    | store => rw [Channel.storeData_eq]; rfl
    | _ => rfl
  · intro hd ho
    change p.ch.direction = _ at hd
    rw [hdir] at hd
    obtain ⟨hs, hops⟩ := ht.calm hd ho
    have hhead := hops op (hl ▸ mem_cons_self)
    refine ⟨?_, ?_⟩
    · change p.ch.sentClose = false
      cases hp with
      | sendClose h => exact absurd rfl hhead.1
      | markSentClose => exact absurd rfl hhead.2
      | store => rw [Channel.storeData_eq]; exact hs
      | _ => exact hs
    · intro o ho'
      obtain h | ⟨x, d, rfl⟩ := hmem o ho'
      · exact hops o h
      · simp
  · intro hd ho
    change p.ch.direction = _ at hd
    rw [hdir] at hd
    rw [hfin]
    exact ht.outbound hd ho
  · intro ho x hx
    rw [hfin]
    exact ht.items_performed hl hp ho hx
  · exact fun h => absurd h hrespond
  · exact fun h => hrespond (mem_of_mem_tail h)
  · intro x hx
    rw [htold]
    exact ht.pushes x ((hmem _ hx).resolve_right (by simp))
  · intro hr
    obtain ⟨ht', pre, post, hloop, hpre, hpost⟩ := ht.leaving ((ht.remove_mem hl hp hop).mp hr)
    refine ⟨htold.mpr ht', [], post, ?_, .inl rfl, hpost⟩
    rw [hl] at hloop
    have hops : ops = .remove :: post := by
      obtain rfl | rfl | rfl := hpre
      · exact absurd (cons.inj hloop).1 hop
      · exact (cons.inj hloop).2
      · exact (cons.inj hloop).2
    change p.rest ops = _
    obtain ⟨-, hrest⟩ | hrest | ⟨⟨y, n, b, rfl⟩, -⟩ := hp.rest_cases ops
    · change .remove ∈ p.rest ops at hr
      rw [hrest] at hr
      cases hr
    · rw [hrest, hops]
      rfl
    · obtain rfl | rfl | rfl := hpre <;> cases (cons.inj hloop).1
  · rw [hfin]
    exact ht.listed

theorem Tracked.perform_remove (ht : e.Tracked w l) (hl : e.loop = .remove :: ops)
    (hp : Performs e.ch choice .remove p) (hn : ¬ l') : (e.performed p ops).Tracked w l' := by
  have hrm : .remove ∈ e.loop := hl ▸ mem_cons_self
  obtain ⟨htold, pre, post, hloop, hpre, hpost⟩ := ht.leaving hrm
  have hops : ops = post := by
    rw [hl] at hloop
    obtain rfl | rfl | rfl := hpre
    · exact (cons.inj hloop).2
    · cases (cons.inj hloop).1
    · cases (cons.inj hloop).1
  have hp' : p = ⟨e.ch, some (.remove e.ch.localId), []⟩ := by
    cases hp with
    | fault h => cases h
    | remove => rfl
  subst hp'
  have htold' := (told_performed ⟨e.ch, some (.remove e.ch.localId), []⟩ ops).mpr htold
  have hfin : (e.performed ⟨e.ch, some (.remove e.ch.localId), []⟩ ops).Finished :=
    ⟨htold', by rw [← hops] at hpost; exact hpost⟩
  have hmem : ∀ o ∈ ops, o ∈ e.loop := fun o ho => hl ▸ .tail _ ho
  have hrespond : .respond ∉ ops := by
    have := ht.first
    rwa [hl] at this
  refine ⟨ht.fresh, ht.inbound, ?_, fun _ _ => .inr hfin, fun _ _ _ => .inr hfin, ?_, ?_, ?_, ?_,
    ?_⟩
  · intro hd ho
    obtain ⟨hs, hops⟩ := ht.calm hd ho
    exact ⟨hs, fun o ho' => hops o (hmem o ho')⟩
  · exact fun h => absurd h hrespond
  · exact fun h => hrespond (mem_of_mem_tail h)
  · exact fun _ _ => .inr (.inr htold')
  · exact fun h => absurd h hfin.2
  · exact ⟨fun h => absurd h hn, fun h => absurd hfin h⟩

end Endpoint

namespace Mux

variable {ι : Type} {m m' : Mux ι} {e e' : Endpoint ι} {k : Nat}

/-- What is known of channel `k` along a run in which it is neither rejected nor abandoned and the
peer keeps to the protocol for it. -/
structure Tracks (m : Mux ι) (k : Nat) : Prop where
  sound : m.Sound
  offered : k ∈ m.newChannels ∨ k ∈ m.incomingChannels.items ∨ m.pc = .offer k →
    ∃ e, m.chans[k]? = some e ∧ e.ch.direction = .inbound
  chan : m.pc.looping = true → ∀ e, m.chans[k]? = some e →
    e.Tracked (k ∈ m.waiting) (m.Listed k)

theorem tracks_newMux (k : Nat) : (newMux : Mux ι).Tracks k := by
  refine ⟨sound_newMux, ?_, fun _ e he => by cases he⟩
  rintro (h | h | h) <;> cases h

theorem Tracks.congr (ht : m.Tracks k) (hs : m'.Sound) (hc : m'.chans[k]? = m.chans[k]?)
    (hl : m'.Listed k ↔ m.Listed k) (hw : k ∈ m'.waiting ↔ k ∈ m.waiting)
    (ho : k ∈ m'.newChannels ∨ k ∈ m'.incomingChannels.items ∨ m'.pc = .offer k →
      k ∈ m.newChannels ∨ k ∈ m.incomingChannels.items ∨ m.pc = .offer k)
    (hp : m'.pc.looping = true → m.pc.looping = true) : m'.Tracks k := by
  refine ⟨hs, ?_, ?_⟩
  · intro h
    rw [hc]
    exact ht.offered (ho h)
  · intro h e he
    rw [hc] at he
    rw [hl, hw]
    exact ht.chan (hp h) e he

theorem Tracks.set (ht : m.Tracks k) (hs : m'.Sound) (he : m.chans[j]? = some e)
    (hc : ∀ i, m'.chans[i]? = if i = j then some e' else m.chans[i]?)
    (hd : e'.ch.direction = e.ch.direction)
    (hself : k = j → m.pc.looping = true → e.Tracked (k ∈ m.waiting) (m.Listed k) →
      e'.Tracked (k ∈ m'.waiting) (m'.Listed k))
    (hother : k ≠ j → (m'.Listed k ↔ m.Listed k) ∧ (k ∈ m'.waiting ↔ k ∈ m.waiting))
    (ho : k ∈ m'.newChannels ∨ k ∈ m'.incomingChannels.items ∨ m'.pc = .offer k →
      k ∈ m.newChannels ∨ k ∈ m.incomingChannels.items ∨ m.pc = .offer k)
    (hp : m'.pc.looping = true → m.pc.looping = true) : m'.Tracks k := by
  have hk := hc k
  by_cases hkj : k = j
  · subst hkj
    rw [if_pos rfl] at hk
    refine ⟨hs, ?_, ?_⟩
    · intro h
      obtain ⟨x, hx, hdir⟩ := ht.offered (ho h)
      cases he.symm.trans hx
      exact ⟨e', hk, hd.trans hdir⟩
    · intro h x hx
      cases hk.symm.trans hx
      exact hself rfl (hp h) (ht.chan (hp h) e he)
  · rw [if_neg hkj] at hk
    exact ht.congr hs hk (hother hkj).1 (hother hkj).2 ho hp

theorem listed_newChannel (m : Mux ι) (ch : Nat → Channel) :
    (m.newChannel ch).Listed k ↔ m.Listed k ∨ k = m.chans.length := by
  obtain ⟨i, -, -, hfree, hnew, hold⟩ := m.chanList.slot_add m.chans.length
  constructor
  · rintro ⟨j, hj⟩
    by_cases hji : j = i
    · subst hji
      exact .inr (Option.some.inj (hj.symm.trans hnew))
    · exact .inl ⟨j, (hold j hji).symm.trans hj⟩
  · rintro (⟨j, hj⟩ | rfl)
    · refine ⟨j, (hold j ?_).trans hj⟩
      rintro rfl
      cases hfree.symm.trans hj
    · exact ⟨i, hnew⟩

theorem Tracks.newChannel (ht : m.Tracks k) (ch : Nat → Channel) (hs : m'.Sound)
    (hc : m'.chans = (m.newChannel ch).chans) (hl : m'.chanList = (m.newChannel ch).chanList)
    (hd : ∀ i, (ch i).decided = false) (hi : ∀ i, (ch i).msg.items = [])
    (hsc : ∀ i, (ch i).sentClose = false)
    (hw : ∀ i, (ch i).direction = .outbound → m.chans.length ∈ m'.waiting)
    (hw' : k ≠ m.chans.length → (k ∈ m'.waiting ↔ k ∈ m.waiting))
    (ho : k ∈ m'.newChannels ∨ k ∈ m'.incomingChannels.items ∨ m'.pc = .offer k →
      (k ∈ m.newChannels ∨ k ∈ m.incomingChannels.items ∨ m.pc = .offer k) ∨
        k = m.chans.length ∧ ∀ i, (ch i).direction = .inbound)
    (hp : m'.pc.looping = true → m.pc.looping = true) : m'.Tracks k := by
  have hlisted : m'.Listed k ↔ m.Listed k ∨ k = m.chans.length := by
    rw [Listed, hl]
    exact m.listed_newChannel ch
  have hnew : m'.chans[m.chans.length]? =
      some (.start (ch (m.chanList.add m.chans.length).1) false []) := by
    rw [hc]
    exact getElem?_concat_length
  have hold : ∀ e, m.chans[k]? = some e → m'.chans[k]? = some e ∧ k ≠ m.chans.length := by
    intro e he
    obtain ⟨hlt, -⟩ := List.getElem?_eq_some_iff.mp he
    rw [hc]
    exact ⟨(List.getElem?_append_left hlt).trans he, Nat.ne_of_lt hlt⟩
  refine ⟨hs, ?_, ?_⟩
  · intro h
    obtain h | ⟨rfl, hin⟩ := ho h
    · obtain ⟨e, he, hdir⟩ := ht.offered h
      exact ⟨e, (hold e he).1, hdir⟩
    · exact ⟨_, hnew, hin _⟩
  · intro h e he
    by_cases hk : k = m.chans.length
    · subst hk
      cases hnew.symm.trans he
      exact Endpoint.Tracked.start (hd _) (hi _) (hsc _) (hw _) (hlisted.mpr (.inr rfl))
    have hlt : k < m.chans.length := by
      obtain ⟨hlt, -⟩ := List.getElem?_eq_some_iff.mp he
      rw [hc] at hlt
      simp only [Mux.newChannel, length_append, length_singleton] at hlt
      omega
    have he' := getElem?_eq_getElem hlt
    cases (hold _ he').1.symm.trans he
    rw [hw' hk, hlisted, or_iff_left hk]
    exact ht.chan (hp h) _ he'

theorem Tracks.reads (ht : m.Tracks k) (hs : m'.Sound) (hp : m.pc = .top) (hr : Reads m p m')
    (hx : ∀ i msg e, p = .chan i msg → m.chanList.slot i = some k → m.chans[k]? = some e →
      e.Expects msg) : m'.Tracks k := by
  have hloop : m.pc.looping = true := by
    rw [hp]
    rfl
  have hgoto : ∀ q : MuxPc, (∀ j, q ≠ .offer j) → (m.goto q).Sound → (m.goto q).Tracks k := by
    intro q hq hs
    refine ht.congr hs rfl .rfl .rfl ?_ (fun _ => hloop)
    exact Or.imp id (Or.imp id fun h => absurd h (hq k))
  cases hr with
  | error | refuse | request | response => exact hgoto _ nofun hs
  | offer msg hl hu =>
    refine ht.newChannel (Channel.handleChannelOpen · msg) hs rfl rfl (fun _ => rfl) (fun _ => rfl)
      (fun _ => rfl) nofun (fun _ => .rfl)
      ?_ (fun _ => hloop)
    rintro (h | h | h)
    · exact .inl (.inl h)
    · exact .inl (.inr (.inl h))
    · exact .inr ⟨(MuxPc.offer.inj h).symm, fun _ => rfl⟩
  | @handle msg i j hj =>
    obtain ⟨e, he⟩ := ht.sound.exists_of_slot hj
    refine ht.set hs he (getElem?_deliver he msg) rfl ?_ (fun _ => ⟨.rfl, .rfl⟩)
      (Or.imp id (Or.imp id nofun)) (fun _ => hloop)
    rintro rfl - htr
    exact htr.receive ⟨i, hj⟩ (ht.sound.loop_nil (by rw [hp]; rfl) he) (hx i msg e rfl hj he)

variable [DecidableEq ι]

theorem Tracks.run (ht : m.Tracks k) (hlen : m.chanList.chans.length < 2 ^ 32)
    (hp : m.pc.running = some j) (he : m.chans[j]? = some e) (hs : e.Steps (.loop c) e' eff) :
    ((m.setChan j e').absorb eff).Tracks k := by
  obtain ⟨hsound, hnp⟩ := ht.sound.run hlen hp he hs
  have hoffer : m.pc ≠ .offer k := by
    intro hi
    rw [hi] at hp
    cases hp
  cases hs with
  | @loop op ops p choice hl hpf =>
    have hdir := hpf.localId_eq.2
    have hchans := getElem?_set he (e.performed p ops)
    obtain heff | heff | ⟨rfl, heff⟩ | ⟨f, hf, heff⟩ := hpf.effect_cases
    iterate 2
      · rw [heff] at hsound ⊢
        have hop : op ≠ .remove := by
          rintro rfl
          cases hpf with
          | fault h => cases h
          | remove => cases heff
        exact ht.set hsound he hchans hdir (fun _ _ htr => htr.perform hl hpf hop)
          (fun _ => ⟨.rfl, .rfl⟩) id id
    · rw [heff] at hsound ⊢
      have hj : m.Listed j := ht.sound.leaving j e hp he (hl ▸ mem_cons_self)
      have hslot := fun i => ht.sound.slot_remove hlen he hj (i := i) (k := k)
      refine ht.set hsound he hchans hdir ?_ ?_ id id
      · rintro rfl - htr
        refine htr.perform_remove hl hpf ?_
        rintro ⟨i, hi⟩
        exact ((hslot i).mp hi).2 rfl
      · intro hkj
        exact ⟨exists_congr fun i => (hslot i).trans (and_iff_left hkj), .rfl⟩
    · rw [heff] at hsound ⊢
      cases f with
      | panic text => exact absurd heff (hnp text)
      | err y =>
        have hloop := ht.sound.looping_of_err hp he hl hf
        refine ht.set hsound he hchans hdir ?_ (fun _ => ⟨.rfl, .rfl⟩)
          (Or.imp id (Or.imp id nofun)) (fun _ => hloop)
        intro _ _ htr
        refine htr.perform hl hpf ?_
        rintro rfl
        cases hf

variable [Fintype ι]

theorem Tracks.loopStep (ht : m.Tracks k) (hlen : m.chanList.chans.length < 2 ^ 32)
    (hs : LoopStep m choice m' out) : m'.Tracks k := by
  have hsound := ht.sound.loopStep hlen hs
  have hend : ∀ {m₁ : Mux ι}, m₁.Sound → m₁.chans = m.chans → m₁.newChannels = m.newChannels →
      m₁.incomingChannels.items = m.incomingChannels.items → (∀ j, m₁.pc ≠ .offer j) →
      m₁.pc.looping = false → m₁.Tracks k := by
    intro m₁ h₁ hc hn hi ho hl
    refine ⟨h₁, ?_, ?_⟩
    · rw [hc, hn, hi]
      exact fun h => ht.offered (h.imp id (Or.imp id fun h => absurd h (ho k)))
    intro h
    cases hl.symm.trans h
  have hgoto : ∀ {q : MuxPc}, (m.goto q).Sound → (∀ j, q ≠ .offer j) → m.pc.looping = true →
      (m.goto q).Tracks k := by
    intro q h₁ hq hl
    exact ht.congr h₁ rfl .rfl .rfl (Or.imp id (Or.imp id fun h => absurd h (hq k))) (fun _ => hl)
  cases hs with
  | refuse hp ho ho' | handled hp he hl | again hp hr => exact hgoto hsound nofun (by rw [hp]; rfl)
  | @offer j hp hl =>
    refine ht.congr hsound rfl .rfl .rfl ?_ (fun _ => by rw [hp]; rfl)
    rintro (h | h | h)
    · exact .inl h
    · obtain h | h := mem_append.mp h
      · exact .inr (.inl h)
      · exact .inr (.inr (by rw [hp, mem_singleton.mp h]))
    · cases h
  | request hp hl | response hp hl =>
    exact ht.congr hsound rfl .rfl .rfl (Or.imp id (Or.imp id nofun)) (fun _ => by rw [hp]; rfl)
  | stopped hp hs =>
    refine hgoto hsound nofun ?_
    cases hpc : m.pc <;> rw [hpc] at hp <;> first | rfl | cases hp
  | run hp he hc hs => exact ht.run hlen hp he (Endpoint.step_cases hs)
  | closed hp he hl | leave hp hr | closeQueues hp | closeConn hp | setErr hp =>
    exact hend hsound rfl rfl rfl nofun rfl
  | drop hp he =>
    refine ht.set hsound he (getElem?_set he _) rfl ?_ (fun _ => ⟨.rfl, .rfl⟩)
      (Or.imp id (Or.imp id nofun)) nofun
    rintro - hl
    rw [hp] at hl
    cases hl

/-- The channel is neither rejected nor abandoned, and the peer keeps to the protocol for it. -/
def Orderly (k : Nat) (m : Mux ι) (a : Act ι) : Prop :=
  m.chanList.chans.length < 2 ^ 32 ∧ match a with
    | .reject j _ | .abandon j => j ≠ k
    | .packet (.chan i msg) => ∀ e ∈ m.chans[k]?, m.chanList.slot i = some k → e.Expects msg
    | _ => True

instance (k : Nat) (m : Mux ι) : (a : Act ι) → Decidable (Orderly k m a)
  | .reject .. | .abandon _ => inferInstanceAs (Decidable (_ ∧ _ ≠ _))
  | .packet (.chan i msg) =>
    inferInstanceAs (Decidable (_ ∧ ∀ e ∈ m.chans[k]?, m.chanList.slot i = some k → e.Expects msg))
  | .packet (.channelOpen _) | .packet (.global _) | .packet (.short _) | .readError _ | .loop _
  | .openChannel | .takeChannel | .accept _ | .chan .. | .takeRequest | .takeResponse | .halt
  | .cancel => inferInstanceAs (Decidable (_ ∧ True))

theorem Tracks.step (ht : m.Tracks k) (hg : Orderly k m a) (hs : m.step a = some (m', out)) :
    m'.Tracks k := by
  obtain ⟨hlen, hg⟩ := hg
  have hsteps := step_cases hs
  have hsound := ht.sound.step hlen hsteps
  cases a with
  | accept j =>
    obtain ⟨e, e', msg, hj, he, hf, rfl, rfl⟩ := onNewChannel_cases hs
    have hd : e'.ch.direction = e.ch.direction := by
      cases accept_cases hf <;> rfl
    refine ht.set hsound he (getElem?_set he e') hd ?_ (fun _ => ⟨.rfl, .rfl⟩) id id
    rintro rfl - htr
    obtain ⟨x, hx, hdir⟩ := ht.offered (.inl hj)
    cases he.symm.trans hx
    exact htr.accept hdir hf
  | reject j f =>
    obtain ⟨e, e', msg, hj, he, hf, rfl, rfl⟩ := onNewChannel_cases hs
    have hd : e'.ch.direction = e.ch.direction := by
      cases reject_cases hf <;> rfl
    exact ht.set hsound he (getElem?_set he e') hd (fun h => absurd h.symm hg)
      (fun _ => ⟨.rfl, .rfl⟩) id id
  | chan j a =>
    simp only [Mux.step] at hs
    split at hs
    · rename_i ho
      subst ho
      rw [Option.ite_none_right_eq_some] at hs
      obtain ⟨e, e', eff, he, hs', rfl, -⟩ := runUser_cases hs.2
      have hsteps := Endpoint.step_cases hs'
      rw [absorb_user hsteps rfl] at hsound ⊢
      refine ht.set hsound he (getElem?_set he e') hsteps.direction_eq ?_ ?_ id id
      · rintro rfl - htr
        have hk : k ∉ (m.stopWaiting k).waiting := by simp [stopWaiting]
        have htr' := htr.opened hs'
        rwa [← eq_false hk] at htr'
      · intro hkj
        refine ⟨.rfl, ?_⟩
        simp [setChan, stopWaiting, hkj]
    · rename_i ho
      rw [Option.ite_none_right_eq_some] at hs
      obtain ⟨e, e', eff, he, hs', rfl, -⟩ := runUser_cases hs.2
      have hsteps := Endpoint.step_cases hs'
      rw [absorb_user hsteps hs.1] at hsound ⊢
      exact ht.set hsound he (getElem?_set he e') hsteps.direction_eq
        (fun _ _ htr => htr.unmoved (hsteps.unmoved hs.1 ho htr.fresh))
          (fun _ => ⟨.rfl, .rfl⟩) id id
  | packet p =>
    obtain ⟨hp, ⟨⟩⟩ := of_guard hs
    refine ht.reads hsound hp (m.onePacket_cases p) ?_
    rintro i msg e rfl hi he
    exact hg e he hi
  | readError err =>
    obtain ⟨hp, ⟨⟩⟩ := of_guard hs
    exact ht.congr hsound rfl .rfl .rfl (Or.imp id (Or.imp id (by rintro ⟨⟩)))
      (fun _ => by rw [hp]; rfl)
  | loop choice => exact ht.loopStep hlen (stepLoop_cases hs)
  | openChannel =>
    cases hs
    refine ht.newChannel Channel.openChannel hsound rfl rfl (fun _ => rfl) (fun _ => rfl)
      (fun _ => rfl) (fun _ _ => mem_cons_self) ?_ .inl id
    intro hk
    exact mem_cons.trans (or_iff_right hk)
  | abandon j =>
    obtain ⟨-, ⟨⟩⟩ := of_guard hs
    refine ht.congr hsound rfl .rfl ?_ id id
    simp [stopWaiting, Ne.symm hg]
  | takeChannel =>
    simp only [Mux.step] at hs
    split at hs
    · cases hs
    rename_i j js hq
    cases hs
    refine ht.congr hsound rfl .rfl .rfl ?_ id
    rintro (h | h | h)
    · obtain h | h := mem_cons.mp h
      · exact .inr (.inl (by rw [hq, h]; exact mem_cons_self))
      · exact .inl h
    · exact .inr (.inl (by rw [hq]; exact .tail _ h))
    · exact .inr (.inr h)
  | takeRequest | takeResponse =>
    simp only [Mux.step] at hs
    split at hs
    · cases hs
    · cases hs
      exact ht.congr hsound rfl .rfl .rfl id id
  | halt | cancel =>
    cases hs
    exact ht.congr hsound rfl .rfl .rfl id id

/-- A step of a mux whose packets to the transport are left aside. -/
def next (m : Mux ι) (a : Act ι) : Option (Mux ι) := (m.step a).map Prod.fst

/-- The peer opens a channel that is received from `incomingChannels`. -/
def inboundOpen : List (Act Unit) :=
  [.packet (.channelOpen (.ok ⟨0, 2 ^ 15, 2 ^ 15⟩)), .loop .comm, .loop .comm, .takeChannel]

end Mux

end XCryptoSsh
