import XCryptoSsh.Idle

namespace XCryptoSsh
set_option autoImplicit true

open Machine List Option

/-- The duration that was set last, unless the timeout has fired since. -/
def setting : List IdleEvent → Option Int
  | [] => none
  | .set _ dur :: _ => some dur
  | .fired :: _ => none
  | _ :: events => setting events

namespace IdleTimer

/-- The background goroutine runs, and its heartbeat ticks for the duration. -/
structure Armed (t : IdleTimer) (d : Int) : Prop where
  running : t.pc ≠ .returned ∧ t.reqStop = false
  not_panicked : ∀ text, t.pc ≠ .panicked text
  dur : t.dur = d ∧ t.atomicdur = d
  heartbeat : t.heartbeat = some (d / factor)
  quiet : t.timeOutRaised = none

structure Good (t : IdleTimer) (history : List IdleEvent) : Prop where
  callbacks : 0 < t.timeoutCallback
  stop : t.reqStop = true → .closed ∈ history
  returned : t.pc = .returned → t.reqStop = true
  not_panicked : ∀ text, t.pc ≠ .panicked text
  atomicdur : t.atomicdur = t.dur
  cleared : ∀ tk d, t.pc = .change tk d → t.timeOutRaised = none
  beat : ∀ i, t.heartbeat = some i → 0 < t.dur ∧ i = t.dur / factor ∧ t.timeOutRaised = none
  armed : .closed ∉ history → ∀ d, setting history = some d → 0 < d →
    t.dur = d ∧ t.heartbeat ≠ none

theorem newIdleTimer_good : newIdleTimer.Good [] :=
  ⟨Nat.one_pos, nofun, nofun, nofun, rfl, nofun, nofun, nofun⟩

def Fits (t : IdleTimer) (newdur : Int) : Prop :=
  0 < newdur → factor ≤ newdur ∧ (t.dur = newdur → t.heartbeat ≠ none)

theorem Good.move (h : Good t history) (hr : p ≠ .returned) (hp : ∀ text, p ≠ .panicked text)
    (hc : ∀ tk d, p = .change tk d → t.timeOutRaised = none) :
    Good { t with pc := p } history :=
  ⟨h.callbacks, h.stop, fun he => (hr he).elim, hp, h.atomicdur, hc, h.beat, h.armed⟩

theorem Good.tell (h : Good t history) (he : setting (e :: history) = setting history) :
    Good t (e :: history) := by
  refine ⟨h.callbacks, fun hs => mem_cons_of_mem _ (h.stop hs), h.returned, h.not_panicked,
    h.atomicdur, h.cleared, h.beat, fun hopen => ?_⟩
  rw [he]
  exact h.armed fun hmem => hopen (mem_cons_of_mem _ hmem)

theorem Good.newTicker (h : Good t history) (hd : factor ≤ newdur) (hq : t.timeOutRaised = none) :
    Good (t.newTicker newdur (.reset tk)) (.set tk newdur :: history) := by
  have hpos : 0 < newdur / factor := by
    unfold factor at hd ⊢
    omega
  have hdur : 0 < newdur := by
    unfold factor at hd
    omega
  unfold IdleTimer.newTicker
  rw [if_neg (not_le.mpr hpos)]
  refine ⟨h.callbacks, fun hs => mem_cons_of_mem _ (h.stop hs), nofun, nofun, rfl, nofun, ?_, ?_⟩
  · rintro i ⟨⟩
    exact ⟨hdur, rfl, hq⟩
  · rintro - d ⟨⟩ -
    exact ⟨rfl, nofun⟩

theorem Good.changeDur (h : Good t history) (hpc : t.pc = .change tk newdur) (hf : t.Fits newdur) :
    Good (t.changeDur tk newdur) (.set tk newdur :: history) := by
  have hq := h.cleared tk newdur hpc
  have hstop : t.reqStop = true → .closed ∈ IdleEvent.set tk newdur :: history :=
    fun hs => mem_cons_of_mem _ (h.stop hs)
  unfold IdleTimer.changeDur
  split
  · split
    · rename_i hsame
      refine ⟨h.callbacks, hstop, nofun, nofun, h.atomicdur, nofun, h.beat, ?_⟩
      rintro - d ⟨⟩ hd
      exact ⟨hsame.symm, (hf hd).2 hsame.symm⟩
    split
    · rename_i hneg
      refine ⟨h.callbacks, hstop, nofun, nofun, rfl, nofun, nofun, ?_⟩
      rintro - d ⟨⟩ hd
      exact absurd hd (not_lt.mpr hneg)
    · rename_i hpos
      exact h.newTicker (hf (not_le.mp hpos)).1 hq
  · rename_i hdur
    split
    · rename_i hneg
      refine ⟨h.callbacks, hstop, nofun, nofun, rfl, nofun, ?_, ?_⟩
      · intro i hi
        exact absurd (h.beat i hi).1 hdur
      · rintro - d ⟨⟩ hd
        exact absurd hd (not_lt.mpr hneg)
    · rename_i hpos
      exact h.newTicker (hf (not_le.mp hpos)).1 hq

theorem Good.raise (h : Good t history) : Good (t.raise mnow began) (.fired :: history) := by
  have hc := h.callbacks.ne'
  unfold IdleTimer.raise
  rw [if_neg hc]
  exact ⟨h.callbacks, fun hs => mem_cons_of_mem _ (h.stop hs), nofun, nofun, h.atomicdur, nofun,
    nofun, nofun⟩

theorem Good.loop (h : Good t history) (hf : ∀ tk newdur, t.pc = .change tk newdur → t.Fits newdur)
    (hl : t.loop clock c = some (t', e)) : Good t' (e.toList ++ history) := by
  unfold IdleTimer.loop at hl
  split at hl
  -- in the select
  · split at hl
    · rename_i hs
      cases hl
      exact ⟨h.callbacks, h.stop, fun _ => hs, nofun, h.atomicdur, nofun, nofun,
        fun hopen => (hopen (h.stop hs)).elim⟩
    · cases hl
  · cases hl
    exact h
  · cases hl
    exact ⟨Nat.one_pos, h.stop, h.returned, h.not_panicked, h.atomicdur, h.cleared, h.beat, h.armed⟩
  · cases hl
    exact ⟨Nat.succ_pos _, h.stop, h.returned, h.not_panicked, h.atomicdur, h.cleared, h.beat,
      h.armed⟩
  · split at hl
    · cases hl
    split at hl
    · rename_i hb hd
      obtain ⟨i, hi⟩ := ne_none_iff_exists'.mp hb
      exact absurd hd (h.beat i hi).1.ne'
    · cases hl
      exact h.move nofun nofun nofun
  -- a ticket
  · cases hl
    refine Good.tell ⟨h.callbacks, h.stop, nofun, nofun, h.atomicdur, fun _ _ _ => rfl, ?_,
      h.armed⟩ rfl
    intro i hi
    exact ⟨(h.beat i hi).1, (h.beat i hi).2.1, rfl⟩
  · rename_i hpc
    cases hl
    exact h.changeDur hpc (hf _ _ hpc)
  · cases hl
    exact Good.tell ⟨h.callbacks, h.stop, nofun, nofun, h.atomicdur, nofun, h.beat, h.armed⟩ rfl
  · cases hl
    exact ⟨h.callbacks, h.stop, nofun, nofun, h.atomicdur, nofun, h.beat, h.armed⟩
  -- a heartbeat
  iterate 3
    · cases hl
      exact h.move nofun nofun nofun
  · split at hl
    · cases hl
      exact h.raise
    · cases hl
      exact h.move nofun nofun nofun
  · cases hl

theorem Good.call (h : Good t history) (hp : p ≠ .stopOneshot)
    (hc : t.call clock n b p = some (t', p', e)) : Good t' (e.toList ++ history) := by
  cases p with
  | stopOneshot => exact (hp rfl).elim
  | requestStop =>
    cases hc
    exact ⟨h.callbacks, fun _ => mem_cons_self, fun _ => rfl, h.not_panicked, h.atomicdur,
      h.cleared, h.beat, fun hopen => (hopen mem_cons_self).elim⟩
  | storeStart mnow | storeOK mnow =>
    cases hc
    exact Good.tell ⟨h.callbacks, h.stop, h.returned, h.not_panicked, h.atomicdur, h.cleared,
      h.beat,
      h.armed⟩ rfl
  | storeOneshot d =>
    cases hc
    exact ⟨h.callbacks, h.stop, h.returned, h.not_panicked, h.atomicdur, h.cleared, h.beat, h.armed⟩
  | awaitDone | sendTicket | awaitTicket =>
    obtain ⟨-, ⟨⟩⟩ := of_guard hc
    exact h
  | _ => cases hc <;> exact h

theorem next_ne_stopOneshot {t : IdleTimer} (hk : p = .attemptOK → t.isOneshot = false)
    (hc : t.call clock n b p = some (t', p', e)) : p' ≠ .stopOneshot := by
  cases p with
  | attemptOK =>
    cases hc
    rw [hk rfl]
    exact nofun
  | awaitDone | sendTicket | awaitTicket =>
    obtain ⟨-, ⟨⟩⟩ := of_guard hc
    exact nofun
  | _ => cases hc <;> exact nofun

theorem Good.armed_of_setting (h : Good t history) (hopen : .closed ∉ history) (hd : 0 < d)
    (hs : setting history = some d) : t.Armed d := by
  obtain ⟨rfl, hb⟩ := h.armed hopen d hs hd
  obtain ⟨i, hi⟩ := ne_none_iff_exists'.mp hb
  obtain ⟨-, rfl, hq⟩ := h.beat i hi
  have hstop : t.reqStop = false := by
    by_contra hne
    exact hopen (h.stop (Bool.not_eq_false _ ▸ hne))
  refine ⟨⟨fun hr => ?_, hstop⟩, h.not_panicked, ⟨rfl, h.atomicdur⟩, hi, hq⟩
  rw [h.returned hr] at hstop
  cases hstop

end IdleTimer

namespace IdleSys

variable [DecidableEq ι]

inductive Stepped (s : IdleSys ι) : IdleAct ι → IdleSys ι → Prop where
  | tick : Stepped s (.tick n) { s with clock := s.clock + n }
  | call (hg : s.pcs g = .idle) : Stepped s (.call g m) (s.goto g m.enter)
  | run (hc : s.timer.call s.clock s.tickets.length b (s.pcs g) = some (t, p, e)) :
    Stepped s (.run g b) { (s.after t e).goto g p with
      tickets := s.tickets ++ match s.pcs g with
        | .newTicket dur => [dur]
        | _ => [] }
  | wake (hg : s.pcs g = .reading n) :
    Stepped s (.wake g ok) (s.goto g (if ok then .attemptOK else .idle))
  | send (hg : s.pcs g = .sendTicket tk dur) (hpc : s.timer.pc = .select) :
    Stepped s (.send g)
      ((s.after { s.timer with pc := .ticket tk dur } none).goto g (.awaitTicket tk dur))
  | loop (hl : s.timer.loop s.clock c = some (t, e)) : Stepped s (.loop c) (s.after t e)

theorem step_cases {s s' : IdleSys ι} (hs : s.step a = some s') : Stepped s a s' := by
  cases a with
  | tick n =>
    cases hs
    exact .tick
  | call g m =>
    obtain ⟨hg, rfl⟩ := of_guard hs
    exact .call hg
  | run g b | wake g ok | send g | loop c =>
    simp only [step] at hs
    split at hs <;> cases hs
    constructor
    all_goals assumption

/-- No success is told to a one-shot timer, no duration is too short for a heartbeat, and none is
set again that has fired. -/
def Kept (s : IdleSys ι) : IdleAct ι → Prop
  | .run g _ => s.pcs g = .attemptOK → s.timer.isOneshot = false
  | .loop _ => match s.timer.pc with
    | .change _ newdur => s.timer.Fits newdur
    | _ => True
  | _ => True

structure Regular (s : IdleSys ι) : Prop where
  good : s.timer.Good s.history
  oneshot : ∀ g, s.pcs g ≠ .stopOneshot

theorem Regular.goto {s : IdleSys ι} (h : Regular s) (hp : p ≠ .stopOneshot) :
    Regular (s.goto g p) := by
  refine ⟨h.good, fun g' => ?_⟩
  by_cases hg : g' = g
  · subst hg
    simpa [IdleSys.goto] using hp
  · simpa [IdleSys.goto, hg] using h.oneshot g'

theorem Regular.step {s s' : IdleSys ι} (h : Regular s) (hk : Kept s a) (hs : s.step a = some s') :
    Regular s' := by
  cases step_cases hs with
  | tick => exact ⟨h.good, h.oneshot⟩
  | @call g m => exact h.goto (by cases m <;> exact nofun)
  | @run b g t p e hc =>
    have hnext : Regular (s.after t e) := ⟨h.good.call (h.oneshot g) hc, h.oneshot⟩
    have hgoto := hnext.goto (g := g) (IdleTimer.next_ne_stopOneshot hk hc)
    exact ⟨hgoto.good, hgoto.oneshot⟩
  | @wake g _ ok => exact h.goto (by cases ok <;> exact nofun)
  | send => exact Regular.goto ⟨h.good.move nofun nofun nofun, h.oneshot⟩ nofun
  | loop hl =>
    refine ⟨h.good.loop (fun tk newdur hpc => ?_) hl, h.oneshot⟩
    simpa only [Kept, hpc] using hk

end IdleSys

def IdlePc.ticket : IdlePc → Option (Nat × Int)
  | .sendTicket tk dur => some (tk, dur)
  | .awaitTicket tk dur => some (tk, dur)
  | _ => none

def LoopPc.asked : LoopPc → Option (Nat × Int)
  | .ticket tk newdur => some (tk, newdur)
  | .change tk newdur => some (tk, newdur)
  | _ => none

def LoopPc.answers : LoopPc → Option Nat
  | .reset tk => some tk
  | .settled tk => some tk
  | _ => none

namespace IdleTimer

theorem call_tickets {t : IdleTimer} (hc : t.call clock n b p = some (t', p', e)) :
    t'.pc = t.pc ∧ t'.closed = t.closed ∧ (∀ tk d, e ≠ some (.set tk d)) ∧
      ((∀ d, p ≠ .newTicket d) ∧ (p'.ticket = none ∨ p'.ticket = p.ticket) ∨
        ∃ d, p = .newTicket d ∧ p'.ticket = some (n, d)) := by
  cases p with
  | newTicket d =>
    cases hc
    exact ⟨rfl, rfl, nofun, .inr ⟨d, rfl, rfl⟩⟩
  | sendTicket tk d =>
    obtain ⟨-, ⟨⟩⟩ := of_guard hc
    exact ⟨rfl, rfl, nofun, .inl ⟨nofun, .inr rfl⟩⟩
  | idle => cases hc
  | reading => cases hc
  | awaitDone | awaitTicket =>
    obtain ⟨-, ⟨⟩⟩ := of_guard hc
    exact ⟨rfl, rfl, nofun, .inl ⟨nofun, .inl rfl⟩⟩
  | attemptOK =>
    cases hc
    refine ⟨rfl, rfl, nofun, .inl ⟨nofun, .inl ?_⟩⟩
    split <;> rfl
  | _ =>
    cases hc
    exact ⟨rfl, rfl, nofun, .inl ⟨nofun, .inl rfl⟩⟩

theorem newTicker_pc (t : IdleTimer) (d : Int) (next : LoopPc) :
    (t.newTicker d next).closed = t.closed ∧
    ((t.newTicker d next).pc = next ∨ ∃ text, (t.newTicker d next).pc = .panicked text) := by
  unfold newTicker
  split
  · exact ⟨rfl, .inr ⟨_, rfl⟩⟩
  · exact ⟨rfl, .inl rfl⟩

theorem changeDur_pc (t : IdleTimer) (tk : Nat) (d : Int) : (t.changeDur tk d).closed = t.closed ∧
    (t.changeDur tk d).pc.asked = none ∧
      ((t.changeDur tk d).pc.answers = some tk ∨ (t.changeDur tk d).pc.answers = none) := by
  have hticker : (t.newTicker d (.reset tk)).closed = t.closed ∧
      (t.newTicker d (.reset tk)).pc.asked = none ∧
        ((t.newTicker d (.reset tk)).pc.answers = some tk ∨
          (t.newTicker d (.reset tk)).pc.answers = none) := by
    obtain ⟨hcl, hpc | ⟨text, hpc⟩⟩ := newTicker_pc t d (.reset tk)
    · rw [hpc]
      exact ⟨hcl, rfl, .inl rfl⟩
    · rw [hpc]
      exact ⟨hcl, rfl, .inr rfl⟩
  unfold changeDur
  split
  · split
    · exact ⟨rfl, rfl, .inl rfl⟩
    split
    · exact ⟨rfl, rfl, .inl rfl⟩
    · exact hticker
  · split
    · exact ⟨rfl, rfl, .inl rfl⟩
    · exact hticker

structure TicketStep (t t' : IdleTimer) (e : Option IdleEvent) : Prop where
  asked : t'.pc.asked = none ∨ t'.pc.asked = t.pc.asked
  set : ∀ tk d, e = some (.set tk d) → t.pc.asked = some (tk, d)
  answered : ∀ tk, t'.pc.answers = some tk ∨ tk ∈ t'.closed →
    t.pc.answers = some tk ∨ tk ∈ t.closed ∨ ∃ d, e = some (.set tk d)

theorem ticketStep_of_none {t t' : IdleTimer} (ha : t'.pc.asked = none) (hn : t'.pc.answers = none)
    (hc : t'.closed = t.closed) (he : ∀ tk d, e ≠ some (.set tk d)) : TicketStep t t' e := by
  refine ⟨.inl ha, fun tk d h => (he tk d h).elim, ?_⟩
  rintro tk (h | h)
  · cases hn.symm.trans h
  · rw [hc] at h
    exact .inr (.inl h)

theorem ticketStep_changeDur {t : IdleTimer} (hpc : t.pc = .change tk d) :
    TicketStep t (t.changeDur tk d) (some (.set tk d)) := by
  obtain ⟨hcl, hasked, hans⟩ := changeDur_pc t tk d
  refine ⟨.inl hasked, ?_, ?_⟩
  · rintro tk' d' ⟨⟩
    rw [hpc]
    rfl
  rintro tk' (h | h)
  · rcases hans with hans | hans
    · cases hans.symm.trans h
      exact .inr (.inr ⟨d, rfl⟩)
    · cases hans.symm.trans h
  · rw [hcl] at h
    exact .inr (.inl h)

theorem raise_pc (t : IdleTimer) :
    (t.raise mnow began).pc.asked = none ∧ (t.raise mnow began).pc.answers = none := by
  unfold raise
  split <;> exact ⟨rfl, rfl⟩

theorem ticketStep_of_eq {t t' : IdleTimer} (hpc : t'.pc = t.pc) (hc : t'.closed = t.closed)
    (he : ∀ tk d, e ≠ some (.set tk d)) : TicketStep t t' e := by
  refine ⟨.inr (by rw [hpc]), fun tk d h => (he tk d h).elim, fun tk h => ?_⟩
  rw [hpc, hc] at h
  exact h.imp_right .inl

theorem loop_tickets {t : IdleTimer} (hl : t.loop clock c = some (t', e)) : TicketStep t t' e := by
  unfold IdleTimer.loop at hl
  split at hl
  -- in the select
  · obtain ⟨-, ⟨⟩⟩ := of_guard hl
    exact ticketStep_of_none rfl rfl rfl nofun
  iterate 3
    · cases hl
      exact ticketStep_of_eq rfl rfl nofun
  · obtain ⟨-, hl⟩ := ite_none_left_eq_some.mp hl
    split at hl <;> cases hl <;> exact ticketStep_of_none rfl rfl rfl nofun
  -- a ticket
  · rename_i hpc
    cases hl
    exact ⟨.inr (by rw [hpc]; rfl), nofun, fun tk h => .inr (.inl (h.resolve_left nofun))⟩
  · rename_i hpc
    cases hl
    exact ticketStep_changeDur hpc
  · rename_i hpc
    cases hl
    refine ⟨.inl rfl, nofun, fun tk h => ?_⟩
    rw [hpc]
    exact h.imp id .inl
  · rename_i hpc
    cases hl
    refine ⟨.inl rfl, nofun, ?_⟩
    rw [hpc]
    rintro tk (h | h)
    · cases h
    rcases mem_cons.mp h with rfl | h
    · exact .inl rfl
    · exact .inr (.inl h)
  -- a heartbeat
  iterate 3
    · cases hl
      exact ticketStep_of_none rfl rfl rfl nofun
  · split at hl
    · cases hl
      exact ticketStep_of_none t.raise_pc.1 t.raise_pc.2 rfl nofun
    · cases hl
      exact ticketStep_of_none rfl rfl rfl nofun
  · cases hl

end IdleTimer

namespace IdleSys

variable [DecidableEq ι]

structure Ticketed (s : IdleSys ι) : Prop where
  made : ∀ g tk d, (s.pcs g).ticket = some (tk, d) → s.tickets[tk]? = some d
  asked : ∀ tk d, s.timer.pc.asked = some (tk, d) → s.tickets[tk]? = some d
  set : ∀ tk d, .set tk d ∈ s.history → s.tickets[tk]? = some d
  answered : ∀ tk, s.timer.pc.answers = some tk ∨ tk ∈ s.timer.closed →
    ∃ d, .set tk d ∈ s.history

theorem Ticketed.goto {s : IdleSys ι} (h : Ticketed s)
    (hp : ∀ tk d, p.ticket = some (tk, d) → s.tickets[tk]? = some d) : Ticketed (s.goto g p) := by
  refine ⟨fun g' tk d ht => ?_, h.asked, h.set, h.answered⟩
  by_cases hg : g' = g
  · subst hg
    exact hp tk d (by simpa [IdleSys.goto] using ht)
  · exact h.made g' tk d (by simpa [IdleSys.goto, hg] using ht)

omit [DecidableEq ι] in
theorem Ticketed.after {s : IdleSys ι} (h : Ticketed s) (ht : IdleTimer.TicketStep s.timer t e) :
    Ticketed (s.after t e) := by
  have hold : ∀ tk d, IdleEvent.set tk d ∈ s.history → .set tk d ∈ (s.after t e).history :=
    fun tk d hd => mem_append_right _ hd
  have hnew : ∀ tk d, e = some (.set tk d) → .set tk d ∈ (s.after t e).history := by
    rintro tk d rfl
    exact mem_cons_self
  refine ⟨h.made, fun tk d ha => ?_, fun tk d hd => ?_, fun tk ha => ?_⟩
  · rcases ht.asked with hn | hn
    · cases hn.symm.trans ha
    · exact h.asked tk d (hn ▸ ha)
  · rcases mem_append.mp hd with hd | hd
    · exact h.asked tk d (ht.set tk d (mem_toList.mp hd))
    · exact h.set tk d hd
  rcases ht.answered tk ha with ha | ha | ⟨d, ha⟩
  · obtain ⟨d, hd⟩ := h.answered tk (.inl ha)
    exact ⟨d, hold tk d hd⟩
  · obtain ⟨d, hd⟩ := h.answered tk (.inr ha)
    exact ⟨d, hold tk d hd⟩
  · exact ⟨d, hnew tk d ha⟩

omit [DecidableEq ι] in
theorem Ticketed.extend {s : IdleSys ι} (h : Ticketed s) (l : List Int) :
    Ticketed { s with tickets := s.tickets ++ l } := by
  have hl : ∀ tk d, s.tickets[tk]? = some d → (s.tickets ++ l)[tk]? = some d :=
    fun tk d ht => getElem?_append_left (getElem?_eq_some_iff.mp ht).1 ▸ ht
  exact ⟨fun g tk d ht => hl tk d (h.made g tk d ht), fun tk d ht => hl tk d (h.asked tk d ht),
    fun tk d ht => hl tk d (h.set tk d ht), h.answered⟩

theorem Ticketed.step {s s' : IdleSys ι} (h : Ticketed s) (hs : s.step a = some s') :
    Ticketed s' := by
  cases step_cases hs with
  | tick => exact ⟨h.made, h.asked, h.set, h.answered⟩
  | @call g m => exact h.goto (by cases m <;> exact nofun)
  | @run b g t p e hc =>
    obtain ⟨hpc, hcl, he, hp⟩ := IdleTimer.call_tickets hc
    have hafter := h.after (IdleTimer.ticketStep_of_eq hpc hcl he)
    rcases hp with ⟨hno, hp⟩ | ⟨d, hd, hp⟩
    · have hgoto : Ticketed ((s.after t e).goto g p) := by
        refine hafter.goto fun tk d ht => ?_
        rcases hp with hp | hp
        · cases hp.symm.trans ht
        · exact h.made g tk d (hp ▸ ht)
      exact hgoto.extend _
    · have hlast := (hafter.extend [d]).goto (g := g) (p := p) fun tk d' ht => by
        cases hp.symm.trans ht
        exact getElem?_concat_length
      rw [hd]
      exact hlast
  | @wake g _ ok => exact h.goto (by cases ok <;> exact nofun)
  | @send g tk dur hg =>
    have ht : s.tickets[tk]? = some dur := h.made g tk dur (by rw [hg]; rfl)
    have hasked : Ticketed (s.after { s.timer with pc := .ticket tk dur } none) := by
      refine ⟨h.made, ?_, h.set, fun tk' ha => h.answered tk' (.inr (ha.resolve_left nofun))⟩
      rintro tk' d ⟨⟩
      exact ht
    refine hasked.goto ?_
    rintro tk' d ⟨⟩
    exact ht
  | loop hl => exact h.after (IdleTimer.loop_tickets hl)

omit [DecidableEq ι] in
theorem start_regular (clock : Int) : Regular (start clock : IdleSys ι) :=
  ⟨IdleTimer.newIdleTimer_good, fun _ => by simp [start]⟩

omit [DecidableEq ι] in
theorem start_ticketed (clock : Int) : Ticketed (start clock : IdleSys ι) := by
  refine ⟨fun g tk d h => ?_, fun tk d h => ?_, fun tk d h => ?_, fun tk h => ?_⟩
  · cases h
  · cases h
  · cases h
  rcases h with h | h
  · cases h
  · cases h

/-- In a run whose steps are kept, the timer of an open channel runs for the duration set last until
it fires, and a call that returns has set its duration. -/
theorem armed_of_kept {clock : Int} (hk : Along step Kept (start clock : IdleSys ι) as)
    (h : exec step (start clock) as = some s) (hopen : .closed ∉ s.history) :
    (∀ d, 0 < d → setting s.history = some d → s.timer.Armed d) ∧
      ∀ g tk d, s.pcs g = .awaitTicket tk d → tk ∈ s.timer.closed → .set tk d ∈ s.history := by
  have hreg : Regular s := run_invariant (I := Regular) (G := Kept)
    (fun s a s' hI hG hs => hI.step hG hs) (start_regular clock) hk h
  have htick : Ticketed s := run_invariant (I := Ticketed) (G := Kept)
    (fun s a s' hI _ hs => hI.step hs) (start_ticketed clock) hk h
  refine ⟨fun d hd hs => hreg.good.armed_of_setting hopen hd hs, fun g tk d hg hcl => ?_⟩
  obtain ⟨d', hset⟩ := htick.answered tk (.inr hcl)
  have hmade := htick.made g tk d (by rw [hg]; rfl)
  cases (htick.set tk d' hset).symm.trans hmade
  exact hset

instance (t : IdleTimer) (newdur : Int) : Decidable (t.Fits newdur) :=
  inferInstanceAs (Decidable (_ → _))

instance (s : IdleSys ι) (a : IdleAct ι) : Decidable (Kept s a) := by
  unfold Kept
  split
  · infer_instance
  · split <;> infer_instance
  · infer_instance

def setting10 : List (IdleAct Unit) :=
  [.call () (.setIdleTimeout 10), .run () false, .send (), .loop .go, .loop .go, .loop .go,
    .loop .go]

def timingOut : List (IdleAct Unit) :=
  [.call () .read, .run () false, .run () false, .tick 100, .loop .heartbeat, .loop .go, .loop .go,
    .loop .go, .loop .go, .wake () false]

theorem armed_setting10 : ∃ s, exec step (start 1) setting10 = some s ∧
    s.pcs () = .awaitTicket 0 10 ∧ 0 ∈ s.timer.closed ∧ s.timer.Armed 10 ∧
      .set 0 10 ∈ s.history := by
  have hk : Along step Kept (start 1) setting10 := by decide
  have h : ∃ s, exec step (start 1) setting10 = some s ∧ .closed ∉ s.history ∧
      setting s.history = some 10 ∧ s.pcs () = .awaitTicket 0 10 ∧ 0 ∈ s.timer.closed :=
    ⟨_, rfl, by decide, rfl, rfl, by decide⟩
  obtain ⟨s, hs, hopen, hset, hpc, hcl⟩ := h
  have harmed := armed_of_kept hk hs hopen
  exact ⟨s, hs, hpc, hcl, harmed.1 10 (by decide) hset, harmed.2 () 0 10 hpc hcl⟩

/-- Once the timeout has fired, setting the same duration again leaves the heartbeat off. -/
theorem not_armed_set_again :
    ∃ s, exec step (start 1) (setting10 ++ .run () false :: timingOut ++ setting10.dropLast) =
        some s ∧ .closed ∉ s.history ∧ s.pcs () = .awaitTicket 1 10 ∧ 1 ∈ s.timer.closed ∧
      setting s.history = some 10 ∧ s.timer.heartbeat = none ∧ ¬s.timer.Armed 10 := by
  refine ⟨_, rfl, by decide, rfl, by decide, rfl, rfl, fun h => ?_⟩
  cases h.heartbeat

end IdleSys
end XCryptoSsh
