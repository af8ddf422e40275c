import XCryptoSsh.Channel
import XCryptoSsh.Machine

namespace XCryptoSsh
set_option autoImplicit true

open Machine List

/-- Where `HandleChannelOpens` stands; `cleanup` is the code after its loop. -/
inductive OpensPc where
  | select
  | lookup (chanType : String)
  | deliver (handler : Nat) (chanType : String)
  | cleanup
  | returned
  | panicked
  deriving DecidableEq, Repr

/-- The loop is left by its `return`s only, which need a stop. -/
def OpensPc.Running (stopped : Bool) : OpensPc → Prop
  | .select | .lookup _ | .deliver .. => True
  | .returned => stopped = true
  | .cleanup | .panicked => False

theorem OpensPc.Running.stop {pc : OpensPc} (h : pc.Running stopped) : pc.Running true := by
  cases pc with
  | returned => rfl
  | _ => exact h

/-- The part of a `Client` that hands out incoming channels, known by their types. `handlers` are
the Go channels of `HandleChannelOpen`, and `stopped` says that `Halt`, `ctx` or `Conn` is done. -/
structure ChannelOpens where
  channelHandlers : Option (List (String × Nat))
  handlers : List (Queue String)
  incoming : Queue String
  rejected : List String
  stopped : Bool
  pc : OpensPc
  deriving DecidableEq, Repr

inductive OpensAct where
  | handleChannelOpen (chanType : String)
  | arrive (chanType : String)
  | closeIncoming
  | stop
  | take (handler : Nat)
  | loop (stop : Bool)
  deriving DecidableEq, Repr

namespace ChannelOpens

def newClient : ChannelOpens := ⟨some [], [], .empty, [], false, .select⟩

/-- A type that is handled already gives nil, and a client that has been cleaned up a closed Go
channel. -/
def handleChannelOpen (s : ChannelOpens) (chanType : String) : ChannelOpens :=
  match s.channelHandlers with
  | none => { s with handlers := s.handlers ++ [⟨[], true⟩] }
  | some hs =>
    if (hs.lookup chanType).isSome then s
    else { s with
      channelHandlers := some ((chanType, s.handlers.length) :: hs)
      handlers := s.handlers ++ [.empty] }

def closeHandlers (hs : List (String × Nat)) (handlers : List (Queue String)) :
    List (Queue String) :=
  hs.foldl (fun l h => l.modify h.2 fun q => { q with closed := true }) handlers

/-- A step of `HandleChannelOpens`, which takes the stop cases of its `select`s if told so. -/
def stepLoop (s : ChannelOpens) (stop : Bool) : Option ChannelOpens :=
  match s.pc with
  | .select =>
    if stop then if s.stopped then some { s with pc := .returned } else none
    else match s.incoming.items with
      | t :: ts => some { s with incoming := { s.incoming with items := ts }, pc := .lookup t }
      -- a closed Go channel keeps yielding nil, which is passed over
      | [] => if s.incoming.closed then some s else none
  | .lookup t => match (s.channelHandlers.getD []).lookup t with
    | some h => some { s with pc := .deliver h t }
    | none => some { s with rejected := s.rejected ++ [t], pc := .select }
  | .deliver h t =>
    if stop then if s.stopped then some { s with pc := .returned } else none
    else match (s.handlers[h]?.getD .empty).push t with
      | none => none
      | some (.error _) => some { s with pc := .panicked }
      | some (.ok q) => some { s with handlers := s.handlers.set h q, pc := .select }
  | .cleanup => some { s with
      handlers := closeHandlers (s.channelHandlers.getD []) s.handlers
      channelHandlers := none
      pc := .returned }
  | .returned | .panicked => none

def step (s : ChannelOpens) : OpensAct → Option ChannelOpens
  | .handleChannelOpen t => some (s.handleChannelOpen t)
  | .arrive t =>
    if s.incoming.closed then none
    else some { s with incoming.items := s.incoming.items ++ [t] }
  | .closeIncoming => some { s with incoming.closed := true }
  | .stop => some { s with stopped := true }
  | .take h => match s.handlers[h]? with
    | some ⟨_ :: ts, closed⟩ => some { s with handlers := s.handlers.set h ⟨ts, closed⟩ }
    | _ => none
  | .loop stop => s.stepLoop stop

structure Uncleaned (s : ChannelOpens) : Prop where
  handlers : s.channelHandlers ≠ none
  pc : s.pc.Running s.stopped
  open_ : ∀ q ∈ s.handlers, q.closed = false

theorem Uncleaned.set {s : ChannelOpens} (h : s.Uncleaned) (hq : q.closed = false)
    (hp : p.Running s.stopped) : Uncleaned { s with handlers := s.handlers.set i q, pc := p } := by
  refine ⟨h.handlers, hp, fun q' hq' => ?_⟩
  rcases mem_or_eq_of_mem_set hq' with hq' | rfl
  · exact h.open_ q' hq'
  · exact hq

theorem Uncleaned.stepLoop {s : ChannelOpens} (h : s.Uncleaned) (hs : s.stepLoop b = some s') :
    s'.Uncleaned := by
  have hmove {s' : ChannelOpens} (hh : s'.channelHandlers = s.channelHandlers)
      (hq : s'.handlers = s.handlers) (hp : s'.pc.Running s'.stopped) : s'.Uncleaned :=
    ⟨hh ▸ h.handlers, hp, hq ▸ h.open_⟩
  unfold ChannelOpens.stepLoop at hs
  split at hs
  · split at hs
    · obtain ⟨hstop, rfl⟩ := of_guard hs
      exact hmove rfl rfl hstop
    split at hs
    · cases hs
      exact hmove rfl rfl trivial
    · obtain ⟨-, rfl⟩ := of_guard hs
      exact h
  · split at hs <;> cases hs <;> exact hmove rfl rfl trivial
  · rename_i i t _
    have hopen : (s.handlers[i]?.getD .empty).closed = false := by
      cases hi : s.handlers[i]? with
      | none => rfl
      | some q => exact h.open_ q (mem_of_getElem? hi)
    split at hs
    · obtain ⟨hstop, rfl⟩ := of_guard hs
      exact hmove rfl rfl hstop
    simp only [Queue.push, hopen, Bool.false_eq_true, if_false] at hs
    split at hs
    · cases hs
    · rename_i hpush
      cases (of_guard hpush).2
    · rename_i hpush
      cases hs
      cases (of_guard hpush).2
      exact h.set rfl trivial
  · rename_i hpc
    exact (hpc ▸ h.pc : OpensPc.Running s.stopped .cleanup).elim
  · cases hs
  · cases hs

theorem Uncleaned.step {s : ChannelOpens} (h : s.Uncleaned) (hs : s.step a = some s') :
    s'.Uncleaned := by
  cases a with
  | handleChannelOpen t =>
    cases hs
    unfold ChannelOpens.handleChannelOpen
    split
    · rename_i hn
      exact absurd hn h.handlers
    split
    · exact h
    refine ⟨nofun, h.pc, fun q hq => ?_⟩
    rcases mem_append.mp hq with hq | hq
    · exact h.open_ q hq
    · rw [mem_singleton.mp hq]
      rfl
  | arrive t =>
    simp only [ChannelOpens.step] at hs
    split at hs <;> cases hs
    exact ⟨h.handlers, h.pc, h.open_⟩
  | closeIncoming =>
    cases hs
    exact ⟨h.handlers, h.pc, h.open_⟩
  | stop =>
    cases hs
    exact ⟨h.handlers, h.pc.stop, h.open_⟩
  | take i =>
    simp only [ChannelOpens.step] at hs
    split at hs
    · rename_i hi
      cases hs
      have ho := h.open_ _ (mem_of_getElem? hi)
      exact h.set ho h.pc
    · cases hs
  | loop b => exact h.stepLoop hs

theorem stopped_step {s : ChannelOpens} (hs : s.step a = some s') :
    s'.stopped = (s.stopped || a == .stop) ∧
      s'.incoming.closed = (s.incoming.closed || a == .closeIncoming) := by
  cases a with
  | handleChannelOpen t =>
    cases hs
    unfold handleChannelOpen
    repeat' split
    all_goals simp
  | loop b =>
    simp only [ChannelOpens.step, ChannelOpens.stepLoop] at hs
    repeat' split at hs
    all_goals cases hs
    all_goals simp
  | _ =>
    simp only [ChannelOpens.step] at hs
    repeat' split at hs
    all_goals cases hs
    all_goals simp_all

theorem Uncleaned.run {s : ChannelOpens} (h : s.Uncleaned)
    (hs : exec ChannelOpens.step s as = some s') :
    s'.Uncleaned ∧ (s'.stopped = true ↔ s.stopped = true ∨ .stop ∈ as) ∧
      (s'.incoming.closed = true ↔ s.incoming.closed = true ∨ .closeIncoming ∈ as) := by
  have hu : s'.Uncleaned := run_invariant (G := fun _ _ => True) (fun _ _ _ h _ hs => h.step hs)
    h (along_of_forall fun _ _ _ => trivial) hs
  have hstop := run_flag (·.stopped) (· == .stop) (fun _ _ _ hs => (stopped_step hs).1) hs
  have hclosed := run_flag (·.incoming.closed) (· == .closeIncoming)
    (fun _ _ _ hs => (stopped_step hs).2) hs
  refine ⟨hu, ?_, ?_⟩
  · simp [hstop]
  · simp [hclosed]

theorem Uncleaned.returns {s : ChannelOpens} (h : s.Uncleaned) (hs : s.stopped = true) :
    ∃ (ls : List Bool) (s' : ChannelOpens),
      exec ChannelOpens.step s (ls.map .loop) = some s' ∧ s'.pc = .returned := by
  cases hpc : s.pc with
  | select | deliver i t => exact ⟨[true], { s with pc := .returned }, by
      simp [exec, ChannelOpens.step, ChannelOpens.stepLoop, hpc, hs], rfl⟩
  | lookup t =>
    cases hl : (s.channelHandlers.getD []).lookup t with
    | some i => exact ⟨[false, true], { s with pc := .returned }, by
        simp [exec, ChannelOpens.step, ChannelOpens.stepLoop, hpc, hs, hl], rfl⟩
    | none => exact ⟨[false, true], { s with rejected := s.rejected ++ [t], pc := .returned }, by
        simp [exec, ChannelOpens.step, ChannelOpens.stepLoop, hpc, hs, hl], rfl⟩
  | returned => exact ⟨[], s, rfl, hpc⟩
  | cleanup => exact (hpc ▸ h.pc : OpensPc.Running s.stopped .cleanup).elim
  | panicked => exact (hpc ▸ h.pc : OpensPc.Running s.stopped .panicked).elim

/-- The clean-up is never reached: `HandleChannelOpens` leaves behind what it should, and returns at
the end of its input, only as long as nothing has been stopped or ended. -/
theorem cleaned_iff (h : exec step newClient as = some s) :
    (∀ (ls : List Bool) s', exec step s (ls.map .loop) = some s' → s'.pc = .returned →
        s'.channelHandlers = none ∧ ∀ q ∈ s'.handlers, q.closed = true) ∧
      (s.incoming.closed = true →
        ∃ (ls : List Bool) (s' : ChannelOpens),
          exec step s (ls.map .loop) = some s' ∧ s'.pc = .returned) ↔
      .stop ∉ as ∧ .closeIncoming ∉ as := by
  have hnew : newClient.Uncleaned := ⟨Option.some_ne_none _, trivial, nofun⟩
  obtain ⟨hu, hstop, hclosed⟩ := hnew.run h
  simp only [newClient, Queue.empty, Bool.false_eq_true, false_or] at hstop hclosed
  have hreturned {ls : List Bool} {s' : ChannelOpens} (hl : exec step s (ls.map .loop) = some s')
    (hr : s'.pc = .returned) :
      .stop ∈ as := by
    obtain ⟨hu', hstop', -⟩ := hu.run hl
    have hs : s'.stopped = true := by simpa [hr, OpensPc.Running] using hu'.pc
    exact hstop.mp ((hstop'.mp hs).resolve_right (by simp))
  constructor
  · rintro ⟨hclean, hret⟩
    have hns : .stop ∉ as := by
      intro hm
      obtain ⟨ls, s', hl, hr⟩ := hu.returns (hstop.mpr hm)
      exact (hu.run hl).1.handlers (hclean ls s' hl hr).1
    refine ⟨hns, fun hm => ?_⟩
    obtain ⟨ls, s', hl, hr⟩ := hret (hclosed.mpr hm)
    exact hns (hreturned hl hr)
  · rintro ⟨hns, hnc⟩
    exact ⟨fun ls s' hl hr => absurd (hreturned hl hr) hns, fun hc => absurd (hclosed.mp hc) hnc⟩

def stoppedSchedule : List OpensAct :=
  [.handleChannelOpen "auth-agent@openssh.com", .closeIncoming, .loop false, .stop, .loop true]

/-- With its input ended, and before anything is stopped, the loop does not come to its end. -/
theorem cleaned_iff_ended : ∃ s, exec step newClient (stoppedSchedule.take 3) = some s ∧
    ¬((∀ (ls : List Bool) s', exec step s (ls.map .loop) = some s' → s'.pc = .returned →
        s'.channelHandlers = none ∧ ∀ q ∈ s'.handlers, q.closed = true) ∧
      (s.incoming.closed = true →
        ∃ (ls : List Bool) (s' : ChannelOpens),
          exec step s (ls.map .loop) = some s' ∧ s'.pc = .returned)) := by
  have h : exec step newClient (stoppedSchedule.take 3) = some _ := rfl
  exact ⟨_, h, fun hc => ((cleaned_iff h).mp hc).2 (by decide)⟩

/-- The loop has read the end of its input and goes on; stopped, it returns and leaves the handler
of the agent's channels open. -/
theorem returned_uncleaned :
    (∃ s, exec step newClient (stoppedSchedule.take 3) = some s ∧ s.incoming.closed = true ∧
      s.pc = .select) ∧
    ∃ s, exec step newClient stoppedSchedule = some s ∧ s.pc = .returned ∧
      s.channelHandlers = some [("auth-agent@openssh.com", 0)] ∧ s.handlers = [⟨[], false⟩] :=
  ⟨⟨_, rfl, rfl, rfl⟩, _, rfl, rfl, rfl, rfl⟩

end ChannelOpens

end XCryptoSsh
