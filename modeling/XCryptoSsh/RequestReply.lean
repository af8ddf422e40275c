import XCryptoSsh.Endpoint

namespace XCryptoSsh
set_option autoImplicit true

open Machine List Channel Function

def Pc.locked : Pc → Bool
  | .transmit _ wantReply _ => wantReply
  | .awaitReply => true
  | _ => false

theorem run_locked {c : Channel} (h : c.run choice pc = some r) (hp : pc ≠ .awaitReply) :
    r.ch.msg = c.msg ∧
      (r.ch.sentRequestMu = c.sentRequestMu ∧ (r.pc.locked = true → pc.locked = true) ∨
        pc.locked = true ∧ r.pc.locked = false ∨
        c.sentRequestMu = false ∧ r.ch.sentRequestMu = true) := by
  cases pc with
  | awaitReply => exact absurd rfl hp
  | lockRequest name payload =>
    simp only [run] at h
    split at h
    · cases h
    rename_i hm
    cases h
    exact ⟨rfl, .inr (.inr ⟨by simpa using hm, rfl⟩)⟩
  | transmit name wantReply payload =>
    simp only [run, writePacket] at h
    cases wantReply with
    | true =>
      split at h
      · cases h
        exact ⟨rfl, .inr (.inl ⟨rfl, rfl⟩)⟩
      rename_i hw
      split at hw <;> cases hw
      cases h
      exact ⟨rfl, .inl ⟨rfl, fun _ => rfl⟩⟩
    | false =>
      split at h
      · cases h
        exact ⟨rfl, .inl ⟨rfl, by rintro ⟨⟩⟩⟩
      rename_i hw
      split at hw <;> cases hw
      cases h
      exact ⟨rfl, .inl ⟨rfl, by rintro ⟨⟩⟩⟩
  | sendRequest name wantReply payload =>
    cases h
    split
    · exact ⟨rfl, .inl ⟨rfl, by rintro ⟨⟩⟩⟩
    · split <;> exact ⟨rfl, .inl ⟨rfl, by rintro ⟨⟩⟩⟩
  | ackRequest ok =>
    cases h
    split
    · exact ⟨rfl, .inl ⟨rfl, by rintro ⟨⟩⟩⟩
    · simp only [sending, writePacket]
      cases c.sentClose <;> exact ⟨rfl, .inl ⟨rfl, by rintro ⟨⟩⟩⟩
  | _ => cases run_cases h <;> first
    | exact ⟨rfl, .inl ⟨rfl, fun hl => by cases hl⟩⟩
    | (rename_i hp; cases hp)

theorem perform_msg {c : Channel} (h : Performs c choice op p) :
    p.ch.sentRequestMu = c.sentRequestMu ∧ c.msg.items <+: p.ch.msg.items := by
  cases h with
  | pushMsg => exact ⟨rfl, prefix_append _ _⟩
  | store =>
    rw [storeData_eq]
    exact ⟨rfl, prefix_rfl⟩
  | _ => exact ⟨rfl, prefix_rfl⟩

namespace Endpoint

variable {ι : Type} [Fintype ι] [DecidableEq ι] {e e' : Endpoint ι}

theorem step_of_next (h : e.next a = some e') : ∃ eff, e.step a = some (e', eff) := by
  obtain ⟨⟨u, eff⟩, hu, rfl⟩ := Option.map_eq_some_iff.mp h
  exact ⟨eff, hu⟩

/-- One call at a time is between the lock and the unlock of `sentRequestMu`. -/
structure OneRequest (e : Endpoint ι) : Prop where
  opened : ∀ i, e.gos i ≠ .idle → e.opened = true
  mutex : ∀ i, (e.gos i).locked = true → e.ch.sentRequestMu = true
  unique : ∀ i j, (e.gos i).locked = true → (e.gos j).locked = true → i = j

omit [Fintype ι] [DecidableEq ι] in
theorem OneRequest.frame (h : e.OneRequest) (ho : e.opened = true → e'.opened = true)
    (hg : e'.gos = e.gos) (hm : e'.ch.sentRequestMu = e.ch.sentRequestMu) : e'.OneRequest where
  opened i hi := ho (h.opened i (hg ▸ hi))
  mutex i hi := hm.trans (h.mutex i (hg ▸ hi))
  unique i j hi hj := h.unique i j (hg ▸ hi) (hg ▸ hj)

omit [Fintype ι] in
theorem OneRequest.set (h : e.OneRequest) (ho : e'.opened = true)
    (hg : e'.gos = update e.gos i pc)
    (hm : e'.ch.sentRequestMu = e.ch.sentRequestMu ∧
          (pc.locked = true → (e.gos i).locked = true) ∨
        (e.gos i).locked = true ∧ pc.locked = false ∨
        e.ch.sentRequestMu = false ∧ e'.ch.sentRequestMu = true) : e'.OneRequest := by
  have hj (j : ι) : e'.gos j = if j = i then pc else e.gos j := by rw [hg, update_apply]
  have hold (j : ι) (hne : j ≠ i) (hl : (e'.gos j).locked = true) : (e.gos j).locked = true := by
    rwa [hj, if_neg hne] at hl
  have hi (hl : (e'.gos i).locked = true) : pc.locked = true := by
    rwa [hj, if_pos rfl] at hl
  obtain ⟨hmu, hp⟩ | ⟨hl, hp⟩ | ⟨hmu, hmu'⟩ := hm
  · -- whoever is inside now was inside before
    have hin (j : ι) (hl : (e'.gos j).locked = true) : (e.gos j).locked = true := by
      by_cases hji : j = i
      · subst hji
        exact hp (hi hl)
      · exact hold j hji hl
    exact ⟨fun _ _ => ho, fun j hl => hmu.trans (h.mutex j (hin j hl)),
      fun j k hl hk => h.unique j k (hin j hl) (hin k hk)⟩
  · -- the one inside has left
    have hout (j : ι) : (e'.gos j).locked ≠ true := by
      intro hl'
      by_cases hji : j = i
      · subst hji
        rw [hi hl'] at hp
        cases hp
      · exact hji (h.unique j i (hold j hji hl') hl)
    exact ⟨fun _ _ => ho, fun j hl' => absurd hl' (hout j), fun j _ hl' => absurd hl' (hout j)⟩
  · -- nobody was inside
    have hin (j : ι) (hl : (e'.gos j).locked = true) : j = i := by
      by_contra hji
      have hl' := h.mutex j (hold j hji hl)
      cases hmu.symm.trans hl'
    exact ⟨fun _ _ => ho, fun _ _ => hmu', fun j k hl hk => (hin j hl).trans (hin k hk).symm⟩

theorem awaitReply_idle {c : Channel} (h : c.run choice .awaitReply = some r) : r.pc = .idle := by
  simp only [run] at h
  split at h
  · cases h
    rfl
  · obtain ⟨-, rfl⟩ := of_guard h
    rfl
  split at h
  · cases h
    rfl
  · obtain ⟨-, rfl⟩ := of_guard h
    rfl

theorem OneRequest.step (h : e.OneRequest) (hs : e.next a = some e') : e'.OneRequest := by
  obtain ⟨eff, hs⟩ := step_of_next hs
  cases a with
  | run i choice =>
    obtain ⟨r, hr, hs⟩ := Option.map_eq_some_iff.mp hs
    cases hs
    have ho : e.opened = true := h.opened i fun hi => by
      rw [hi] at hr
      cases hr
    by_cases hw : e.gos i = .awaitReply
    · rw [hw] at hr
      exact h.set ho rfl (.inr (.inl ⟨by rw [hw]; rfl, by rw [awaitReply_idle hr]; rfl⟩))
    · exact h.set ho rfl (run_locked hr hw).2
  | call i m =>
    cases step_cases hs with
    | call ho hi hm =>
      exact h.set ho rfl (.inl ⟨rfl, fun hl => by cases m <;> cases hl⟩)
  | loop choice =>
    cases step_cases hs with
    | loop hl hp => exact h.frame id rfl (perform_msg hp).1
  | _ => cases step_cases hs <;> exact h.frame (fun ho => (by first | exact ho | rfl)) rfl rfl

omit [Fintype ι] in
theorem log_ran_ret (e : Endpoint ι) (c : Channel) :
    (e.ran i (c.ret x)).log = e.log ++ [.returned x] :=
  congrArg (· ++ _) (append_nil _)

/-- The oldest reply that the waiting call can take is `m`. -/
structure Waiting (i : ι) (m : ChanMsg) (e : Endpoint ι) : Prop where
  one : e.OneRequest
  pc : e.gos i = .awaitReply
  reply : [m] <+: e.ch.msg.items

theorem Waiting.step (h : Waiting i m e) (ha : ∀ choice, a ≠ .run i choice)
    (hs : e.next a = some e') : Waiting i m e' := by
  have hone := h.one.step hs
  obtain ⟨eff, hs⟩ := step_of_next hs
  refine ⟨hone, ?_, ?_⟩
  · cases step_cases hs with
    | @run j r choice hr =>
      have hj : i ≠ j := fun hj => ha choice (hj ▸ rfl)
      exact (update_of_ne hj _ _).trans h.pc
    | @call j m' ho hi hm =>
      have hj : i ≠ j := fun hj => by
        rw [← hj, h.pc] at hi
        cases hi
      exact (update_of_ne hj _ _).trans h.pc
    | _ => exact h.pc
  · cases a with
    | run j choice =>
      obtain ⟨r, hr, hs⟩ := Option.map_eq_some_iff.mp hs
      cases hs
      have hw : e.gos j ≠ .awaitReply := fun hw =>
        ha choice (by rw [h.one.unique j i (by rw [hw]; rfl) (by rw [h.pc]; rfl)])
      change [m] <+: r.ch.msg.items
      rw [(run_locked hr hw).1]
      exact h.reply
    | loop choice =>
      cases step_cases hs with
      | loop hl hp => exact h.reply.trans (perform_msg hp).2
    | opened =>
      have ho := h.one.opened i (by rw [h.pc]; exact nofun)
      cases step_cases hs with
      | opened hm hn hd | refused hm hn hd =>
        cases ho.symm.trans hn
    | _ =>
      cases step_cases hs
      exact h.reply

/-- A call of `SendRequest` returns the reply that has been received exactly when its `select` does
not take the stop of the channel's Halter, which is ready once a CLOSE has been handled. -/
theorem reply_returned_iff {ch : Channel} {l : List Event}
    (h : exec next (start ch o l) as = some e) (hi : e.gos i = .awaitReply)
    (hm : e.ch.msg.items = m :: ms) (hr : m = .success ∨ m = .failure)
    (hb : exec next e bs = some e') (hbs : ∀ a ∈ bs, ∀ choice, a ≠ .run i choice) :
    (∃ e'', e'.next (.run i .comm) = some e'') ∧
      ∀ choice e'', choice ≠ .muxHalt → e'.next (.run i choice) = some e'' →
        (e''.log = e'.log ++ [.returned (.answered (m == .success) none)] ↔ choice = .comm) ∧
          (e'.ch.haltStop = false → choice = .comm) := by
  have h₀ : (start ch o l : Endpoint ι).OneRequest :=
    ⟨fun _ hi => absurd rfl hi, by rintro _ ⟨⟩, by rintro _ _ ⟨⟩⟩
  have hone : e.OneRequest := run_invariant (G := fun _ _ => True)
    (fun _ _ _ h _ hs => h.step hs) h₀ (along_of_forall fun _ _ _ => trivial) h
  have hw : Waiting i m e' := run_invariant (G := fun _ a => ∀ choice, a ≠ .run i choice)
    (fun _ _ _ h ha hs => h.step ha hs) ⟨hone, hi, hm ▸ ⟨ms, rfl⟩⟩
    (along_of_forall fun a ha _ => hbs a ha) hb
  obtain ⟨ms', hms⟩ := hw.reply
  have hcomm : e'.next (.run i .comm) = some (e'.ran i (ret { e'.ch with
      sentRequestMu := false, msg := { e'.ch.msg with items := ms' } } (replyOf m))) := by
    simp only [next, step, hw.pc, run, ← hms, cons_append, nil_append,
      Option.map_some]
  refine ⟨⟨_, hcomm⟩, ?_⟩
  intro choice e'' hmux hs
  cases choice with
  | muxHalt => exact absurd rfl hmux
  | comm =>
    cases hcomm.symm.trans hs
    rw [log_ran_ret]
    obtain rfl | rfl := hr <;> exact ⟨iff_of_true rfl rfl, fun _ => rfl⟩
  | halt =>
    simp only [next, step, hw.pc, run] at hs
    split at hs
    · rename_i hh
      cases hs
      refine ⟨iff_of_false ?_ (by simp), fun hn => ?_⟩
      · rw [log_ran_ret, append_cancel_left_eq]
        simp
      · cases hh.symm.trans hn
    · cases hs

def repliedSchedule : List (Act Unit) :=
  [.call () (.sendRequest "exec" true []), .run () .comm, .run () .comm, .run () .comm,
    .deliver .success, .loop .comm]

def closeSchedule : List (Act Unit) :=
  .deliver .close :: List.replicate 10 (.loop .comm)

def asking : Endpoint Unit := start (handleChannelOpen 0 ⟨1, 10, 10⟩).accept.1 true []

theorem reply_returned_iff_closed :
    ∃ e e' : Endpoint Unit, exec next asking repliedSchedule = some e ∧
      exec next e closeSchedule = some e' ∧ e'.ch.haltStop = true ∧
      ∃ e'', e'.next (.run () .comm) = some e'' := by
  have h : exec next asking repliedSchedule = some _ := rfl
  have hbs : ∀ a ∈ closeSchedule, ∀ choice, a ≠ .run () choice := by
    intro a ha choice
    rw [closeSchedule, mem_cons, mem_replicate] at ha
    obtain rfl | ⟨-, rfl⟩ := ha <;> exact nofun
  exact ⟨_, _, h, rfl, rfl, (reply_returned_iff h rfl rfl (.inl rfl) rfl hbs).1⟩

/-- The success that arrived before the CLOSE is reported as EOF. -/
theorem reply_lost :
    ∃ e : Endpoint Unit,
      exec next asking (repliedSchedule ++ closeSchedule ++ [.run () .halt]) = some e ∧
      e.log.getLast? = some (.returned (.answered false (some .eof))) :=
  ⟨_, rfl, rfl⟩

end Endpoint

end XCryptoSsh
