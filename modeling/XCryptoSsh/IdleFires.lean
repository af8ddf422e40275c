import XCryptoSsh.IdleArmed

namespace XCryptoSsh
set_option autoImplicit true

open Machine

/-- The start of the attempt that began last, unless the timeout has been set since. -/
def begun : List IdleEvent → Option Int
  | [] => none
  | .began mnow :: _ => some mnow
  | .reset :: _ => none
  | _ :: events => begun events

def succeeded : List IdleEvent → Int
  | [] => 0
  | .ok mnow :: _ => mnow
  | _ :: events => succeeded events

theorem idleStatus_iff : idleStatus mnow lastOK lastStart todur = true ↔
    0 < todur ∧ 0 < lastStart ∧ lastOK < lastStart ∧ todur < mnow - lastStart := by
  unfold idleStatus
  split
  · simp only [Bool.false_eq_true, false_iff]
    omega
  · rw [decide_eq_true_iff]
    omega

def LoopPc.Beating : LoopPc → Prop
  | .heartbeat | .loadOK _ | .loadStart .. | .loadDur .. => True
  | _ => False

def IdlePc.Positive : IdlePc → Prop
  | .storeStart mnow => 0 < mnow
  | _ => True

namespace IdleTimer

structure Timed (t : IdleTimer) (history : List IdleEvent) : Prop where
  started : ∀ m, begun history = some m → t.lastStart = m ∧ 0 < m
  unstarted : begun history = none → t.lastStart ≤ 0
  succeeded : t.lastOK = XCryptoSsh.succeeded history
  atomicdur : t.atomicdur = t.dur
  cleared : ∀ tk d, t.pc = .change tk d → t.timeOutRaised = none
  quiet : t.heartbeat ≠ none → t.timeOutRaised = none
  beating : t.pc.Beating → t.heartbeat ≠ none

theorem newIdleTimer_timed : newIdleTimer.Timed [] :=
  ⟨nofun, fun _ => le_rfl, rfl, rfl, nofun, nofun, nofun⟩

theorem Timed.move (h : Timed t history) (hc : ∀ tk d, next ≠ .change tk d)
    (hb : next.Beating → t.heartbeat ≠ none) : Timed { t with pc := next } history :=
  ⟨h.started, h.unstarted, h.succeeded, h.atomicdur, fun tk d he => (hc tk d he).elim, h.quiet, hb⟩

theorem Timed.tell (h : Timed t history) (hb : begun (e :: history) = begun history)
    (hs : XCryptoSsh.succeeded (e :: history) = XCryptoSsh.succeeded history) :
    Timed t (e :: history) := by
  refine ⟨?_, ?_, ?_, h.atomicdur, h.cleared, h.quiet, h.beating⟩
  · rw [hb]
    exact h.started
  · rw [hb]
    exact h.unstarted
  · rw [hs]
    exact h.succeeded

theorem Timed.newTicker (h : Timed t history) (hq : t.timeOutRaised = none) :
    Timed (t.newTicker newdur (.reset tk)) history := by
  unfold IdleTimer.newTicker
  split
  iterate 2
    · exact ⟨h.started, h.unstarted, h.succeeded, rfl, nofun, fun _ => hq, nofun⟩

theorem Timed.changeDur (h : Timed t history) (hq : t.timeOutRaised = none) :
    Timed (t.changeDur tk newdur) history := by
  unfold IdleTimer.changeDur
  split
  · split
    · exact h.move nofun nofun
    split
    · exact ⟨h.started, h.unstarted, h.succeeded, rfl, nofun, nofun, nofun⟩
    · exact h.newTicker hq
  · split
    · exact ⟨h.started, h.unstarted, h.succeeded, rfl, nofun, h.quiet, nofun⟩
    · exact h.newTicker hq

theorem Timed.reset (h : Timed t history) (hr : t'.lastStart = -1) (hok : t'.lastOK = t.lastOK)
    (hd : t'.atomicdur = t'.dur) (hq : t'.heartbeat ≠ none → t'.timeOutRaised = none)
    (hc : ∀ tk d, t'.pc = .change tk d → t'.timeOutRaised = none) (hb : ¬t'.pc.Beating) :
    Timed t' (.reset :: history) :=
  ⟨nofun, fun _ => by rw [hr]; decide, hok.trans h.succeeded, hd, hc, hq, fun hno => (hb hno).elim⟩

theorem Timed.loop (h : Timed t history) (hl : t.loop clock c = some (t', e)) :
    Timed t' (e.toList ++ history) := by
  unfold IdleTimer.loop at hl
  split at hl
  -- in the select
  · obtain ⟨-, ⟨⟩⟩ := of_guard hl
    exact ⟨h.started, h.unstarted, h.succeeded, h.atomicdur, nofun, nofun, nofun⟩
  · cases hl
    exact h
  iterate 2
    · cases hl
      exact ⟨h.started, h.unstarted, h.succeeded, h.atomicdur, h.cleared, h.quiet, h.beating⟩
  · obtain ⟨hb, hl⟩ := Option.ite_none_left_eq_some.mp hl
    split at hl
    · cases hl
      exact h.move nofun nofun
    · cases hl
      exact h.move nofun fun _ => hb
  -- a ticket
  · cases hl
    exact h.reset rfl rfl h.atomicdur (fun _ => rfl) (fun _ _ _ => rfl) nofun
  · rename_i hpc
    cases hl
    exact (h.changeDur (h.cleared _ _ hpc)).tell rfl rfl
  · cases hl
    exact h.reset rfl rfl h.atomicdur h.quiet nofun nofun
  · cases hl
    exact ⟨h.started, h.unstarted, h.succeeded, h.atomicdur, nofun, h.quiet, nofun⟩
  -- a heartbeat
  iterate 3
    · rename_i hpc
      cases hl
      exact h.move nofun fun _ => h.beating (by rw [hpc]; trivial)
  · split at hl
    · cases hl
      refine Timed.tell ⟨h.started, h.unstarted, h.succeeded, h.atomicdur, ?_, nofun, ?_⟩ rfl rfl
      · intro tk d hpc
        unfold IdleTimer.raise at hpc
        split at hpc <;> cases hpc
      · intro hb
        unfold IdleTimer.raise at hb
        split at hb <;> exact hb.elim
    · cases hl
      exact h.move nofun nofun
  · cases hl

theorem Timed.call (h : Timed t history) (hp : p.Positive)
    (hc : t.call clock n b p = some (t', p', e)) :
    Timed t' (e.toList ++ history) := by
  cases p with
  | storeStart mnow =>
    cases hc
    refine ⟨?_, nofun, h.succeeded, h.atomicdur, h.cleared, h.quiet, h.beating⟩
    rintro m ⟨⟩
    exact ⟨rfl, hp⟩
  | storeOK mnow =>
    cases hc
    exact ⟨h.started, h.unstarted, rfl, h.atomicdur, h.cleared, h.quiet, h.beating⟩
  | stopOneshot | requestStop =>
    cases hc
    exact Timed.tell ⟨h.started, h.unstarted, h.succeeded, h.atomicdur, h.cleared, h.quiet,
      h.beating⟩
      rfl rfl
  | storeOneshot d =>
    cases hc
    exact ⟨h.started, h.unstarted, h.succeeded, h.atomicdur, h.cleared, h.quiet, h.beating⟩
  | awaitDone | sendTicket | awaitTicket =>
    obtain ⟨-, ⟨⟩⟩ := of_guard hc
    exact h
  | _ => cases hc <;> exact h

theorem next_positive {t : IdleTimer} (hclock : 0 < clock)
    (hc : t.call clock n b p = some (t', p', e)) : p'.Positive := by
  cases p with
  | beginAttempt =>
    cases hc
    exact hclock
  | attemptOK =>
    cases hc
    split <;> trivial
  | awaitDone | sendTicket | awaitTicket =>
    obtain ⟨-, ⟨⟩⟩ := of_guard hc
    trivial
  | _ => cases hc <;> trivial

theorem call_frame {t : IdleTimer} (hc : t.call clock n b p = some (t', p', e)) :
    t'.pc = t.pc ∧ t'.dur = t.dur ∧ ((∀ m, p ≠ .storeStart m) → t'.lastStart = t.lastStart) ∧
      ((∀ m, p ≠ .storeOK m) → t'.lastOK = t.lastOK) := by
  cases p with
  | storeStart mnow =>
    cases hc
    exact ⟨rfl, rfl, fun h => (h mnow rfl).elim, fun _ => rfl⟩
  | storeOK mnow =>
    cases hc
    exact ⟨rfl, rfl, fun _ => rfl, fun h => (h mnow rfl).elim⟩
  | awaitDone | sendTicket | awaitTicket =>
    obtain ⟨-, ⟨⟩⟩ := of_guard hc
    exact ⟨rfl, rfl, fun _ => rfl, fun _ => rfl⟩
  | _ => cases hc <;> exact ⟨rfl, rfl, fun _ => rfl, fun _ => rfl⟩

structure Looking (mnow ok started d : Int) (t : IdleTimer) : Prop where
  pc : t.pc = .loadOK mnow ∨ t.pc = .loadStart mnow ok ∨ t.pc = .loadDur mnow ok started
  lastOK : t.lastOK = ok
  lastStart : t.lastStart = started
  dur : t.dur = d

theorem Looking.loop (h : Looking mnow ok started d t) (hl : t.loop clock c = some (t', e))
    (hb : t'.pc.Beating) : Looking mnow ok started d t' := by
  unfold IdleTimer.loop at hl
  rcases h.pc with hpc | hpc | hpc
  · rw [hpc] at hl
    cases c <;> cases hl
    exact ⟨.inr (.inl (by rw [h.lastOK])), h.lastOK, h.lastStart, h.dur⟩
  · rw [hpc] at hl
    cases c <;> cases hl
    exact ⟨.inr (.inr (by rw [h.lastStart])), h.lastOK, h.lastStart, h.dur⟩
  rw [hpc] at hl
  cases c with
  | go =>
    -- the heartbeat is over
    simp only at hl
    split at hl
    · cases hl
      unfold IdleTimer.raise at hb
      split at hb <;> exact hb.elim
    · cases hl
      exact hb.elim
  | _ => cases hl

end IdleTimer

namespace IdleSys

variable [DecidableEq ι]

structure Clocked (s : IdleSys ι) : Prop where
  timed : s.timer.Timed s.history
  clock : 0 < s.clock
  positive : ∀ g, (s.pcs g).Positive

theorem Clocked.goto {s : IdleSys ι} (h : Clocked s) (hp : p.Positive) : Clocked (s.goto g p) := by
  refine ⟨h.timed, h.clock, fun g' => ?_⟩
  by_cases hg : g' = g
  · subst hg
    simpa [IdleSys.goto] using hp
  · simpa [IdleSys.goto, hg] using h.positive g'

theorem Clocked.step {s s' : IdleSys ι} (h : Clocked s) (hs : s.step a = some s') : Clocked s' := by
  cases step_cases hs with
  | @tick n =>
    exact ⟨h.timed, Int.lt_of_lt_of_le h.clock (Int.le_add_of_nonneg_right (Int.natCast_nonneg n)),
      h.positive⟩
  | @call g m => exact h.goto (by cases m <;> trivial)
  | @run b g t p e hc =>
    have hnext : Clocked (s.after t e) := ⟨h.timed.call (h.positive g) hc, h.clock, h.positive⟩
    have hgoto := hnext.goto (g := g) (IdleTimer.next_positive h.clock hc)
    exact ⟨hgoto.timed, hgoto.clock, hgoto.positive⟩
  | @wake g _ ok => exact h.goto (by cases ok <;> trivial)
  | send => exact Clocked.goto ⟨h.timed.move nofun nofun, h.clock, h.positive⟩ trivial
  | loop hl => exact ⟨h.timed.loop hl, h.clock, h.positive⟩

/-- The heartbeat is still being looked at, and no call stores a time. -/
def Undisturbed (s : IdleSys ι) (a : IdleAct ι) : Prop :=
  s.timer.pc.Beating ∧ ∀ g b, a = .run g b →
    (∀ m, s.pcs g ≠ .storeStart m) ∧ ∀ m, s.pcs g ≠ .storeOK m

theorem looking_step {s s' : IdleSys ι} (h : s.timer.pc.Beating → s.timer.Looking mnow ok started d)
    (hu : Undisturbed s a) (hs : s.step a = some s') (hb : s'.timer.pc.Beating) :
    s'.timer.Looking mnow ok started d := by
  have hl := h hu.1
  cases step_cases hs with
  | tick | call | wake => exact hl
  | @run b g t p e hc =>
    obtain ⟨hstart, hok⟩ := hu.2 g b rfl
    obtain ⟨hpc, hdur, hst, hsok⟩ := IdleTimer.call_frame hc
    refine ⟨?_, (hsok hok).trans hl.lastOK, (hst hstart).trans hl.lastStart, hdur.trans hl.dur⟩
    change t.pc = _ ∨ t.pc = _ ∨ t.pc = _
    rw [hpc]
    exact hl.pc
  | send => exact hb.elim
  | loop hloop => exact hl.loop hloop hb

theorem raises_iff {s : IdleSys ι} (hc : Clocked s) (hpc : s.timer.pc = .loadDur mnow ok started) :
    ∃ s', s.step (.loop .go) = some s' ∧
      (s'.timer.timeOutRaised ≠ none ↔
        0 < s.timer.dur ∧ 0 < started ∧ ok < started ∧ s.timer.dur < mnow - started) := by
  have hq : s.timer.timeOutRaised = none :=
    hc.timed.quiet (hc.timed.beating (by rw [hpc]; trivial))
  have hl : s.timer.loop s.clock .go = if idleStatus mnow ok started s.timer.atomicdur then
      some (s.timer.raise mnow started, some .fired) else
        some ({ s.timer with pc := .select }, none) := by
    unfold IdleTimer.loop
    rw [hpc]
  rw [hc.timed.atomicdur] at hl
  simp only [IdleSys.step, hl, ← idleStatus_iff]
  by_cases hi : idleStatus mnow ok started s.timer.dur = true
  · rw [if_pos hi]
    exact ⟨_, rfl, iff_of_true (by rintro ⟨⟩) hi⟩
  · rw [if_neg hi]
    exact ⟨_, rfl, iff_of_false (not_not_intro hq) hi⟩

omit [DecidableEq ι] in
/-- Some `Read` waits, and both its start and the last success are too long ago. -/
def Overdue (s : IdleSys ι) : Prop :=
  ∃ g began, s.pcs g = .reading began ∧ s.timer.dur < s.clock - max began (succeeded s.history)

/-- At a heartbeat that nothing disturbs, an overdue `Read` times out exactly when the attempt that
began last is too long ago, with no success and no new setting after it. -/
theorem heartbeat_raises_iff {clock : Int} (hclock : 0 < clock)
    (h : exec step (start clock : IdleSys ι) as = some s) (hpc : s.timer.pc = .heartbeat)
    (hdur : 0 < s.timer.dur) (hu : Along step Undisturbed s (.loop .go :: bs))
    (hr : exec step s (.loop .go :: bs) = some s₁) (hd : s₁.timer.pc = .loadDur mnow ok started) :
    ∃ s', s₁.step (.loop .go) = some s' ∧
      ((s.Overdue → s'.timer.timeOutRaised ≠ none) ↔
        (s.Overdue → ∃ m, begun s.history = some m ∧ succeeded s.history < m ∧
          s.timer.dur < s.clock - m)) := by
  have hstart : Clocked (start clock : IdleSys ι) :=
    ⟨IdleTimer.newIdleTimer_timed, hclock, fun _ => trivial⟩
  have hall : ∀ (s : IdleSys ι) as, Along step (fun _ _ => True) s as :=
    fun s as => along_of_forall fun _ _ _ => trivial
  have hkeep : ∀ (s : IdleSys ι) a s', Clocked s → True → s.step a = some s' → Clocked s' :=
    fun s a s' hI _ hs => hI.step hs
  have hs : Clocked s := run_invariant hkeep hstart (hall _ _) h
  have hs₁ : Clocked s₁ := run_invariant hkeep hs (hall _ _) hr
  -- the clock is read first
  have hfirst : s.step (.loop .go) = some (s.after
    { s.timer with pc := .loadOK s.clock } none) := by
    simp only [IdleSys.step, IdleTimer.loop, hpc]
  obtain ⟨s₂, hs₂, hrest⟩ := exec_cons_some hr
  cases hfirst.symm.trans hs₂
  have hlook : s₁.timer.pc.Beating → s₁.timer.Looking s.clock s.timer.lastOK s.timer.lastStart
      s.timer.dur := by
    refine run_invariant (I := fun s' : IdleSys ι => s'.timer.pc.Beating → s'.timer.Looking s.clock
      s.timer.lastOK s.timer.lastStart s.timer.dur) (G := Undisturbed)
      (fun s a s' hI hG hs hb => looking_step hI hG hs hb) ?_ (hu.2 _ hfirst) hrest
    exact fun _ => ⟨.inl rfl, rfl, rfl, rfl⟩
  obtain ⟨hpc₁, -, -, hdur₁⟩ := hlook (by rw [hd]; trivial)
  rw [hd] at hpc₁
  have hread : mnow = s.clock ∧ ok = s.timer.lastOK ∧ started = s.timer.lastStart := by
    simpa using hpc₁
  obtain ⟨rfl, rfl, rfl⟩ := hread
  obtain ⟨s', hs', hiff⟩ := raises_iff hs₁ hd
  refine ⟨s', hs', imp_congr_right fun _ => ?_⟩
  rw [hiff, hdur₁, hs.timed.succeeded]
  constructor
  · rintro ⟨-, hpos, hok, hlt⟩
    cases hb : begun s.history with
    | none => exact absurd (hs.timed.unstarted hb) (not_le.mpr hpos)
    | some m =>
      obtain ⟨hm, -⟩ := hs.timed.started m hb
      rw [hm] at hok hlt
      exact ⟨m, rfl, hok, hlt⟩
  · rintro ⟨m, hb, hok, hlt⟩
    obtain ⟨hm, hpos⟩ := hs.timed.started m hb
    rw [hm]
    exact ⟨hdur, hpos, hok, hlt⟩

omit [DecidableEq ι] in
theorem undisturbed_loop {s : IdleSys ι} (h : s.timer.pc.Beating) : Undisturbed s (.loop c) :=
  ⟨h, nofun⟩

/-- A `Read` of one goroutine that begins after the timeout was set, up to a heartbeat that comes
long after. -/
def waiting (packet : List (IdleAct Bool)) : List (IdleAct Bool) :=
  [.call true (.setIdleTimeout 10), .run true false, .send true, .loop .go, .loop .go, .loop .go,
    .loop .go, .run true false, .call true .read, .run true false, .run true false, .tick 1] ++
    packet ++ [.tick 100, .loop .heartbeat]

theorem heartbeat_raises : ∃ s s₁ s', exec step (start 1) (waiting []) = some s ∧ s.Overdue ∧
    exec step s [.loop .go, .loop .go, .loop .go] = some s₁ ∧ s₁.step (.loop .go) = some s' ∧
    s'.timer.timeOutRaised ≠ none := by
  have h : ∃ s s₁, exec step (start 1) (waiting []) = some s ∧ s.timer.pc = .heartbeat ∧
      0 < s.timer.dur ∧ s.pcs true = .reading 1 ∧
        s.timer.dur < s.clock - max 1 (succeeded s.history) ∧
      begun s.history = some 1 ∧ succeeded s.history < 1 ∧ s.timer.dur < s.clock - 1 ∧
      exec step s [.loop .go, .loop .go, .loop .go] = some s₁ ∧ s₁.timer.pc = .loadDur 102 0 1 ∧
      Along step Undisturbed s [.loop .go, .loop .go, .loop .go] :=
    ⟨_, _, rfl, rfl, by decide, rfl, by decide, rfl, by decide, by decide, rfl, rfl, by
      iterate 3
        refine ⟨undisturbed_loop trivial, ?_⟩
        rintro _ ⟨⟩
      trivial⟩
  obtain ⟨s, s₁, hs, hpc, hdur, hg, hlt, hb, hok, hlong, hs₁, hd, hu⟩ := h
  obtain ⟨s', hs', hiff⟩ := heartbeat_raises_iff Int.one_pos hs hpc hdur hu hs₁ hd
  exact ⟨s, s₁, s', hs, ⟨true, 1, hg, hlt⟩, hs₁, hs',
    hiff.mpr (fun _ => ⟨1, hb, hok, hlong⟩) ⟨true, 1, hg, hlt⟩⟩

/-- A packet that leaves the `Read` waiting counts as a success of it. -/
theorem heartbeat_misses :
    ∃ s s', exec step (start 1) (waiting [.call false .attemptOK, .run false false,
      .run false false,
        .run false false]) = some s ∧ s.timer.pc = .heartbeat ∧ 0 < s.timer.dur ∧ s.Overdue ∧
      exec step s [.loop .go, .loop .go, .loop .go, .loop .go] = some s' ∧
      s'.timer.pc = .select ∧ s'.timer.timeOutRaised = none :=
  ⟨_, _, rfl, rfl, by decide, ⟨true, 1, rfl, by decide⟩, rfl, rfl, rfl⟩

end IdleSys
end XCryptoSsh
