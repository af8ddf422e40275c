import XCryptoSsh.HandshakeOrder

namespace XCryptoSsh
open Machine
set_option autoImplicit true

theorem exists_inside_setPc {ws : List Writer} {i j : Nat} {pc : WriterPc}
    (hw : ∃ w, ws[j]? = some w ∧ w.pc.inside = true) (hp : pc.inside = true) :
    ∃ w, (setPc ws i pc)[j]? = some w ∧ w.pc.inside = true := by
  obtain ⟨w, hw, hi⟩ := hw
  by_cases hj : i = j
  · subst hj
    exact ⟨_, setPc_self hw pc, hp⟩
  · refine ⟨w, ?_, hi⟩
    rw [getElem?_setPc, if_neg hj, hw]

namespace HandshakeTransport

variable {t t' : HandshakeTransport}

/-- The stop case of the `select` that answers the reader; `kexLoop` holds `t.mu` there. -/
def StopsInNotify (t : HandshakeTransport) (a : Action) : Prop := t.kex = .notify ∧ a = .kex .stop

structure Guarded (t : HandshakeTransport) : Prop where
  exclusive : t.Exclusive
  writer : ∀ i, t.mu = some (.writer i) → ∃ w, t.writers[i]? = some w ∧ w.pc.inside = true
  kex : t.mu = some .kexLoop → t.kex.inside = true

theorem guarded_new (c : HandshakeConfig) : (new c).Guarded :=
  ⟨exclusive_new c, nofun, nofun⟩

theorem Guarded.writerStep (h : t.Guarded) (hs : WriterStep t i r t') : t'.Guarded := by
  refine ⟨h.exclusive.writerStep hs, ?_, ?_⟩
  · intro j hj
    cases hs with
    | lock hw hmu =>
      cases hj
      exact ⟨_, setPc_self hw .check, rfl⟩
    | unlock hw => cases hj
    | refuse hw | count hw | queue hw | push hw =>
      exact exists_inside_setPc (h.writer j hj) rfl
  · intro hk
    cases hs with
    | lock hw hmu => cases hk
    | unlock hw => cases hk
    | _ => exact h.kex hk

theorem Guarded.frame (h : t.Guarded) (he : t'.Exclusive) (hm : t'.mu = t.mu)
    (hw : t'.writers = t.writers) (hk : t.kex.inside = true → t'.kex.inside = true) :
    t'.Guarded := by
  refine ⟨he, ?_, ?_⟩
  · intro i hi
    rw [hw]
    exact h.writer i (hm ▸ hi)
  · intro hi
    exact hk (h.kex (hm ▸ hi))

theorem Guarded.kexStep (h : t.Guarded) (hs : KexStep t c t')
    (hn : ¬ (t.kex = .notify ∧ c = .stop)) : t'.Guarded := by
  have he := h.exclusive.kexStep hs
  have outside {k : KexPc} (hk : t.kex = k) (hi : k.inside = false) :
    t.kex.inside = true → False := by
    intro hin
    rw [hk, hi] at hin
    cases hin
  cases hs with
  | initLock hk hmu | finish hk hmu => exact ⟨he, nofun, fun _ => rfl⟩
  | initPushed hk | initFailed hk | unlock hk =>
    exact ⟨he, nofun, nofun⟩
  | clear hk => exact h.frame he rfl rfl id
  | cleared hk | notify hk | flush hk => exact h.frame he rfl rfl fun _ => rfl
  | exchange hk hx =>
    cases hx <;> exact h.frame he rfl rfl fun hin => (outside hk rfl hin).elim
  | stop hk hs =>
    obtain ⟨_, _, hk⟩ | ⟨_, hk⟩ | hk := hk
    iterate 2
      · exact h.frame he rfl rfl fun hin => (outside hk rfl hin).elim
    · exact (hn ⟨hk, rfl⟩).elim
  | _ hk => exact h.frame he rfl rfl fun hin => (outside hk rfl hin).elim

theorem Guarded.step (h : t.Guarded) (hn : ¬ StopsInNotify t a) (hs : t.step a = some t') :
    t'.Guarded := by
  have he := h.exclusive.step hs
  cases step_cases hs with
  | writer hs => exact h.writerStep hs
  | kex hs =>
    refine h.kexStep hs ?_
    rintro ⟨hk, rfl⟩
    exact hn ⟨hk, rfl⟩
  | call =>
    refine ⟨he, ?_, h.kex⟩
    intro i hi
    obtain ⟨w, hw, hin⟩ := h.writer i hi
    have hl := (List.getElem?_eq_some_iff.mp hw).1
    exact ⟨w, (List.getElem?_append_left hl).trans hw, hin⟩
  | read hs | drain hs => cases hs <;> exact h.frame he rfl rfl id
  | requestKeyExchange | halt | receive => exact h.frame he rfl rfl id

structure Stuck (t : HandshakeTransport) : Prop where
  exclusive : t.Exclusive
  returned : t.kex = .returned
  held : t.mu = some .kexLoop

theorem Stuck.step (h : t.Stuck) (hs : t.step a = some t') : t'.Stuck := by
  have he := h.exclusive.step hs
  cases step_cases hs with
  | writer hs =>
    cases hs with
    | lock hw hmu => cases hmu.symm.trans h.held
    | unlock hw => cases (h.exclusive.writer hw rfl).symm.trans h.held
    | _ => exact ⟨he, h.returned, h.held⟩
  | kex hs =>
    have hr := h.returned
    cases hs with
    | stop hk hs =>
      obtain ⟨_, _, hk⟩ | ⟨_, hk⟩ | hk := hk <;> cases hk.symm.trans hr
    | _ hk => cases hk.symm.trans hr
  | read hs | drain hs => cases hs <;> exact ⟨he, h.returned, h.held⟩
  | call | requestKeyExchange | halt | receive => exact ⟨he, h.returned, h.held⟩

theorem Stuck.run (h : t.Stuck) (hs : exec HandshakeTransport.step t as = some t') : t'.Stuck :=
  run_invariant (G := fun _ _ => True) (fun _ _ _ hi _ hs => hi.step hs) h
    (along_of_forall fun _ _ _ => trivial) hs

/-- A call leaves its critical section by `n` steps of its own. -/
def Frees (t : HandshakeTransport) (i n : Nat) : Prop :=
  ∃ t', exec step t (List.replicate n (.writer i none)) = some t' ∧ t'.mu = none

theorem frees_succ (hs : t.stepWriter i none = some u) (h : u.Frees i n) : t.Frees i (n + 1) := by
  obtain ⟨t', ht, hm⟩ := h
  refine ⟨t', ?_, hm⟩
  rw [List.replicate_succ, exec, step, hs]
  exact ht

theorem frees_unlock (hw : t.writers[i]? = some ⟨p, .unlock res⟩) : t.Frees i 1 := by
  refine ⟨{ t.setWriter i (.done res) with mu := none }, ?_, rfl⟩
  simp [exec, step, stepWriter, hw]

theorem frees_push (hw : t.writers[i]? = some ⟨p, .push⟩) : t.Frees i 2 := by
  have hs : t.stepWriter i none =
      some ((t.connWrite .app p none).setWriter i (.unlock none)) := by
    simp only [stepWriter, hw]
  exact frees_succ hs (frees_unlock (setPc_self hw _))

theorem exists_frees (hw : t.writers[i]? = some ⟨p, pc⟩) (hin : pc.inside = true) :
    ∃ n, t.Frees i n := by
  cases pc with
  | lock => cases hin
  | done r => cases hin
  | unlock res => exact ⟨1, frees_unlock hw⟩
  | push => exact ⟨2, frees_push hw⟩
  | check =>
    obtain ⟨u, hs⟩ : ∃ u, t.stepWriter i none = some u := by
      simp only [stepWriter, hw]
      split
      · exact ⟨_, rfl⟩
      · split <;> exact ⟨_, rfl⟩
    -- a refused or queued packet unlocks next, a counted one is pushed first
    cases stepWriter_cases hs with
    | refuse hw' he | queue hw' he hi => exact ⟨2, frees_succ hs (frees_unlock (setPc_self hw _))⟩
    | count hw' he hi => exact ⟨3, frees_succ hs (frees_push (setPc_self hw _))⟩
    | lock hw' | push hw' | unlock hw' => cases hw.symm.trans hw'

theorem Guarded.released (h : t.Guarded) (hk : t.mu ≠ some .kexLoop) : ∃ i n, t.Frees i n := by
  cases hm : t.mu with
  | none => exact ⟨0, 0, t, rfl, hm⟩
  | some holder =>
    cases holder with
    | kexLoop => exact absurd hm hk
    | writer i =>
      obtain ⟨⟨p, pc⟩, hw, hin⟩ := h.writer i hm
      exact ⟨i, exists_frees hw hin⟩

/-- Once `kexLoop` has left its loop it holds `t.mu` exactly if it took the stop case of the
`select` that answers the reader. Then `t.mu` is never unlocked; else it can be. -/
theorem left_holding_iff (c : HandshakeConfig) (as : List Action)
    (h : exec step (new c) as = some t) (hk : t.kex = .leave ∨ t.kex = .returned) :
    (t.mu = some .kexLoop ↔
      ¬ Along step (fun t a => ¬ StopsInNotify t a) (new c) as) ∧
    (t.mu = some .kexLoop → ∀ bs t', exec step t bs = some t' → t'.mu = some .kexLoop) ∧
    (t.mu ≠ some .kexLoop → ∃ i n, t.Frees i n) := by
  by_cases hg : Along step (fun t a => ¬ StopsInNotify t a) (new c) as
  · have hi : t.Guarded :=
      run_invariant (fun _ _ _ hi hn hs => hi.step hn hs) (guarded_new c) hg h
    have hm : t.mu ≠ some .kexLoop := by
      intro hm
      have hin := hi.kex hm
      obtain hk | hk := hk <;> rw [hk] at hin <;> cases hin
    exact ⟨⟨fun hm' => absurd hm' hm, fun hn => absurd hg hn⟩, fun hm' => absurd hm' hm,
      fun _ => hi.released hm⟩
  · obtain ⟨bs, a, cs, u, -, hbs, hu, hn, hcs⟩ := exists_of_not_along hg h
    have hi : u.Guarded :=
      run_invariant (fun _ _ _ hi hn hs => hi.step hn hs) (guarded_new c) hbs hu
    obtain ⟨hnotify, rfl⟩ := not_not.mp hn
    obtain ⟨v, hv, hvt⟩ := exec_cons_some hcs
    have hmu : u.mu = some .kexLoop := hi.exclusive.kex (by rw [hnotify]; rfl)
    have hstuck : v.Stuck := by
      have he := hi.exclusive.step hv
      simp only [HandshakeTransport.step, stepKex, hnotify, Option.ite_none_right_eq_some,
        Option.some.injEq] at hv
      obtain ⟨-, rfl⟩ := hv
      exact ⟨he, rfl, hmu⟩
    have ht := hstuck.run hvt
    exact ⟨⟨fun _ => hg, fun _ => ht.held⟩, fun _ bs t' hb => (ht.run hb).held,
      fun hm => absurd ht.held hm⟩

def exchangeSchedule : List Action :=
  [.kex .go, .kex .requestKex, .kex .go, .kex (.push [7] none),
    .read (.packet ⟨msgKexInit, [9]⟩), .read .go, .read .go, .kex .startKex, .kex .go,
    .kex (.parsed ⟨"kex", "key", ⟨"c", "m", "none"⟩, ⟨"c", "m", "none"⟩⟩ false),
    .kex (.wrote ⟨30, [1]⟩ none), .kex (.packet ⟨31, [2]⟩), .kex (.result [3]), .kex .go,
    .kex (.wrote ⟨msgNewKeys, []⟩ none), .kex (.packet ⟨msgNewKeys, []⟩), .kex .go, .kex .go]

/-- The Halter is stopped after the exchange, and `kexLoop` returns with `t.mu` locked. -/
theorem returned_holding :
    ∃ t, exec step (new ⟨0, false⟩) (exchangeSchedule ++ [.halt, .kex .stop]) = some t ∧
      t.kex = .returned ∧ t.mu = some .kexLoop :=
  ⟨_, rfl, rfl, rfl⟩

/-- Stopped before the exchange, `kexLoop` returns without the mutex, which a call can take. -/
theorem left_holding_iff_stopped :
    ∃ t, exec step (new ⟨0, false⟩) [.kex .go, .halt, .kex .stop] = some t ∧
      t.kex = .returned ∧
      (t.mu = some .kexLoop ↔ ¬ Along step (fun t a => ¬ StopsInNotify t a)
        (new ⟨0, false⟩) [.kex .go, .halt, .kex .stop]) :=
  ⟨_, rfl, rfl, (left_holding_iff ⟨0, false⟩ _ rfl (.inr rfl)).1⟩

end HandshakeTransport

end XCryptoSsh
