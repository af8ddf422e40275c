import XCryptoSsh.HandshakeOrder

namespace XCryptoSsh
open Machine Option
set_option autoImplicit true

def KexPc.exchanging : KexPc → Bool
  | .exchange _ | .lockFinish _ => true
  | _ => false

namespace HandshakeTransport

variable {t : HandshakeTransport}

/-- The steps that do not overlook an earlier write error: `sendKexInit` does not push after one, an
exchange that failed left no packet queued, and `readLoop` does not record its error during an
exchange. -/
def Careful (t : HandshakeTransport) : Action → Prop
  | .kex .go =>
    (∀ request, t.kex = .lockInit request → t.writeError = none ∨ t.sentInitMsg ≠ none) ∧
      (∀ e, t.kex = .lockFinish (some e) → t.pendingPackets = [])
  | .read .go => t.reader = .record → t.kex.exchanging = false
  | _ => True

structure Sound (t : HandshakeTransport) : Prop where
  exclusive : t.Exclusive
  pushing : ∀ (i : Nat) (p : Packet), t.writers[i]? = some ⟨p, .push⟩ →
    t.writeError = none ∧ t.sentInitMsg = none
  initPush : ∀ request, t.kex = .pushInit request → t.writeError = none
  sentInit : ∀ request, t.kex = .select request true → t.sentInitMsg ≠ none
  checked : ∀ request, t.kex = .check request → t.sentInitMsg ≠ none ∨ t.writeError ≠ none
  exchanging : t.kex.exchanging = true → t.writeError = none ∧ t.sentInitMsg ≠ none
  finished : t.kex = .clear ∨ t.kex = .notify → t.writeError ≠ none → t.pendingPackets = []
  flushing : ∀ todo, t.kex = .flush todo → t.writeError ≠ none → todo = []

theorem sound_new (c : HandshakeConfig) : (new c).Sound where
  exclusive := exclusive_new c
  pushing := by intro i p hi; simp [new] at hi
  initPush := nofun
  sentInit := nofun
  checked := nofun
  exchanging := nofun
  finished := fun h => by rcases h with h | h <;> cases h
  flushing := nofun

theorem Sound.outside (h : t.Sound) {w : Writer} {i : Nat} (hw : t.writers[i]? = some w)
    (hi : w.pc.inside = true) : t.kex ≠ .clear ∧ t.kex ≠ .notify ∧
      (∀ todo, t.kex ≠ .flush todo) ∧ ∀ request, t.kex ≠ .pushInit request := by
  have ho := h.exclusive.not_kex_inside hw hi
  refine ⟨?_, ?_, ?_, ?_⟩
  · intro hk; rw [hk] at ho; cases ho
  · intro hk; rw [hk] at ho; cases ho
  · intro todo hk; rw [hk] at ho; cases ho
  · intro request hk; rw [hk] at ho; cases ho

theorem Sound.writerFrame {t' : HandshakeTransport} (h : t.Sound) (he : t'.Exclusive)
    (hp : ∀ (i : Nat) (p : Packet), t'.writers[i]? = some ⟨p, .push⟩ →
      t.writeError = none ∧ t.sentInitMsg = none)
    (hk : t'.kex = t.kex) (hi : t'.sentInitMsg = t.sentInitMsg)
    (hw : t'.writeError = t.writeError)
    (hq : t'.pendingPackets = t.pendingPackets ∨ (t.kex ≠ .clear ∧ t.kex ≠ .notify)) :
    t'.Sound where
  exclusive := he
  pushing := by
    rw [hw, hi]
    exact hp
  initPush := by
    rw [hk, hw]
    exact h.initPush
  sentInit := by
    rw [hk, hi]
    exact h.sentInit
  checked := by
    rw [hk, hi, hw]
    exact h.checked
  exchanging := by
    rw [hk, hi, hw]
    exact h.exchanging
  finished := by
    rw [hk, hw]
    intro hf hwe
    rcases hq with hq | ⟨hc, hn⟩
    · rw [hq]
      exact h.finished hf hwe
    rcases hf with hf | hf
    · exact (hc hf).elim
    · exact (hn hf).elim
  flushing := by
    rw [hk, hw]
    exact h.flushing

theorem Sound.writerStep (h : t.Sound) (hs : WriterStep t i r t') : t'.Sound := by
  have he := h.exclusive.writerStep hs
  cases hs with
  | lock hw hmu | refuse hw | unlock hw =>
    exact h.writerFrame he (pushing_setPc h.pushing nofun) rfl rfl rfl (.inl rfl)
  | count hw hn hs =>
    exact h.writerFrame he (pushing_setPc h.pushing fun _ => ⟨hn, hs⟩) rfl rfl rfl (.inl rfl)
  | queue hw hn hs =>
    have ho := h.outside hw rfl
    exact h.writerFrame he (pushing_setPc h.pushing nofun) rfl rfl rfl
      (.inr ⟨ho.1, ho.2.1⟩)
  | push hw =>
    obtain ⟨hwe, hsi⟩ := h.pushing i _ hw
    obtain ⟨hc, hn, hf, hp⟩ := h.outside hw rfl
    refine ⟨he, ?_, ?_, ?_, ?_, ?_, ?_, ?_⟩
    · intro j q hj
      rcases setPc_inv hj with ⟨hne, hj⟩ | ⟨_, w₀, _, hw₀⟩
      · exact (hne (h.exclusive.unique hj rfl hw rfl)).elim
      · cases congrArg Writer.pc hw₀
    · intro request hk
      exact (hp request hk).elim
    · intro request hk
      exact (h.sentInit request hk hsi).elim
    · intro request hk
      rcases h.checked request hk with hc | hc
      · exact (hc hsi).elim
      · exact (hc hwe).elim
    · intro hk
      exact ((h.exchanging hk).2 hsi).elim
    · rintro (hk | hk)
      · exact (hc hk).elim
      · exact (hn hk).elim
    · intro todo hk
      exact (hf todo hk).elim

def Fits (t : HandshakeTransport) : KexPc → Prop
  | .pushInit _ => t.writeError = none
  | .select _ sent => sent = true → t.sentInitMsg ≠ none
  | .check _ => t.sentInitMsg ≠ none ∨ t.writeError ≠ none
  | .exchange _ | .lockFinish _ => t.writeError = none ∧ t.sentInitMsg ≠ none
  | .clear | .notify => t.writeError ≠ none → t.pendingPackets = []
  | .flush todo => t.writeError ≠ none → todo = []
  | _ => True

theorem Sound.of_fits (he : t.Exclusive)
    (hp : ∀ (i : Nat) (p : Packet), t.writers[i]? = some ⟨p, .push⟩ →
      t.writeError = none ∧ t.sentInitMsg = none)
    (hf : t.Fits t.kex) : t.Sound where
  exclusive := he
  pushing := hp
  initPush := fun _ hk => by rw [hk] at hf; exact hf
  sentInit := fun _ hk => by rw [hk] at hf; exact hf rfl
  checked := fun _ hk => by rw [hk] at hf; exact hf
  exchanging := fun hk => by
    cases hx : t.kex with
    | exchange | lockFinish => rw [hx] at hf; exact hf
    | _ => rw [hx] at hk; cases hk
  finished := fun hk => by rcases hk with hk | hk <;> rw [hk] at hf <;> exact hf
  flushing := fun _ hk => by rw [hk] at hf; exact hf

theorem fits_afterInit (request : Option Packet) (hs : t.sentInitMsg ≠ none) :
    t.Fits (afterInit request) := by
  cases request with
  | none => exact fun _ => hs
  | some p => exact .inl hs

theorem Sound.exchangeStep (h : t.Sound) (hk : t.kex = .exchange x)
    (hs : ExchangeStep t c t') : t'.Sound := by
  have he := h.exclusive.kexStep (.exchange hk hs)
  have hx := h.exchanging (by rw [hk]; rfl)
  cases hs <;> exact .of_fits he h.pushing hx

theorem Sound.kexStep (h : t.Sound) (hg : Careful t (.kex c)) (hs : KexStep t c t') :
    t'.Sound := by
  have he := h.exclusive.kexStep hs
  have hnp := h.exclusive.not_push
  have hfree (hmu : t.mu = none) (i : Nat) (p : Packet) :
      ¬ t.writers[i]? = some ⟨p, .push⟩ :=
    fun hw => by cases hmu.symm.trans (h.exclusive.writer hw rfl)
  cases hs with
  | initAlready hk hmu hs => exact .of_fits he h.pushing (fits_afterInit _ hs)
  | initPushed hk =>
    exact .of_fits he (fun i p hw => (hnp (by rw [hk]; rfl) i p hw).elim)
      (fits_afterInit _ (some_ne_none _))
  | initLock hk hmu hs =>
    exact .of_fits he h.pushing ((hg.1 _ hk).resolve_right fun hn => hn hs)
  | record hk hmu =>
    exact .of_fits he (fun i p hw => (hfree hmu i p hw).elim) (.inr (some_ne_none _))
  | checkPass hk hmu hwe =>
    exact .of_fits he h.pushing ⟨hwe, (h.checked _ hk).resolve_right fun hn => hn hwe⟩
  | exchange hk hx => exact h.exchangeStep hk hx
  | @finish r n b hk hmu =>
    refine .of_fits he (fun i p hw => (hfree hmu i p hw).elim) fun hwe => ?_
    cases r with
    | none => exact (hwe rfl).elim
    | some e => exact hg.2 e hk
  | clear hk =>
    exact ⟨he, h.pushing, h.initPush, h.sentInit, h.checked, h.exchanging, h.finished,
      h.flushing⟩
  | cleared hk => exact .of_fits he h.pushing (h.finished (.inl hk))
  | notify hk => exact .of_fits he h.pushing (h.finished (.inr hk))
  | flush hk r =>
    exact .of_fits he (fun i p hw => (hnp (by rw [hk]; rfl) i p hw).elim) fun hwe => if_neg hwe
  | requestSent hk hr => exact .of_fits he h.pushing fun _ => h.sentInit _ hk
  | startSent hk hs => exact .of_fits he h.pushing (.inl (h.sentInit _ hk))
  | enter hk => exact .of_fits he h.pushing nofun
  | _ hk => exact .of_fits he h.pushing trivial

theorem Sound.readStep (h : t.Sound) (hg : Careful t (.read c)) (hs : ReadStep t c t') :
    t'.Sound := by
  have he : t'.Exclusive := by
    cases hs <;> exact ⟨h.exclusive.writer, h.exclusive.kex⟩
  cases hs with
  | record hr hmu hw =>
    have hout (hk : t.kex.inside = true) : False := by
      have ho := h.exclusive.kex hk
      cases hmu.symm.trans ho
    refine ⟨he, ?_, ?_, h.sentInit, ?_, ?_, ?_, ?_⟩
    · intro i p hwi
      have ho := h.exclusive.writer hwi rfl
      cases hmu.symm.trans ho
    · intro request hk
      exact (hout (by rw [hk]; rfl)).elim
    · intro request hk
      exact (h.checked request hk).imp id hw
    · intro hk
      have hx := hg hr
      change t.kex.exchanging = true at hk
      cases hx.symm.trans hk
    · rintro (hk | hk) <;> exact (hout (by rw [hk]; rfl)).elim
    · intro todo hk
      exact (hout (by rw [hk]; rfl)).elim
  | _ =>
    exact ⟨he, h.pushing, h.initPush, h.sentInit, h.checked, h.exchanging, h.finished,
      h.flushing⟩

theorem Sound.step (h : t.Sound) (hg : Careful t a) (hs : t.step a = some t') : t'.Sound := by
  have he := h.exclusive.step hs
  cases step_cases hs with
  | writer hs => exact h.writerStep hs
  | kex hs => exact h.kexStep hg hs
  | read hs => exact h.readStep hg hs
  | call =>
    refine h.writerFrame he ?_ rfl rfl rfl (.inl rfl)
    intro i q hw
    simp only [callWritePacket, List.getElem?_append] at hw
    split at hw
    · exact h.pushing i q hw
    rw [List.getElem?_singleton] at hw
    split at hw
    · have hpc := congrArg Writer.pc (some.inj hw)
      simp only at hpc
      split at hpc
      · cases hpc
      · split at hpc <;> cases hpc
    · cases hw
  | drain hs => cases hs <;> exact h.writerFrame he h.pushing rfl rfl rfl (.inl rfl)
  | requestKeyExchange | halt | receive =>
    exact h.writerFrame he h.pushing rfl rfl rfl (.inl rfl)

theorem Sound.final_step (h : t.Sound) (hg : Careful t a) (hs : t.step a = some t')
    (he : t.writeError ≠ none) : t'.writeError ≠ none ∧ t'.sent = t.sent := by
  cases step_cases hs with
  | writer hs =>
    cases hs with
    | push hw => exact (he (h.pushing _ _ hw).1).elim
    | _ => exact ⟨he, rfl⟩
  | kex hs =>
    cases hs with
    | initPushed hk | initFailed hk => exact (he (h.initPush _ hk)).elim
    | record hk hmu => exact ⟨some_ne_none _, rfl⟩
    | exchange hk hx | finish hk hmu => exact (he (h.exchanging (by rw [hk]; rfl)).1).elim
    | flush hk r => cases h.flushing _ hk he
    | _ => exact ⟨he, rfl⟩
  | read hs =>
    cases hs with
    | record hr hmu hw => exact ⟨hw he, rfl⟩
    | _ => exact ⟨he, rfl⟩
  | drain hs => cases hs <;> exact ⟨he, rfl⟩
  | call | requestKeyExchange | halt | receive => exact ⟨he, rfl⟩

/-- In a run of careful steps a write error is final: it stays, and nothing is sent after it. -/
theorem writeError_final (c : HandshakeConfig)
    (hg : Along step Careful (new c) (as ++ bs))
    (h : exec step (new c) as = some t) (h' : exec step t bs = some t')
    (he : t.writeError ≠ none) : t'.writeError ≠ none ∧ t'.sent = t.sent := by
  obtain ⟨hga, hgb⟩ := along_append hg h
  have hsound : t.Sound :=
    run_invariant (fun _ _ _ hi hga hs => hi.step hga hs) (sound_new c) hga h
  have hfinal : t'.Sound ∧ t'.writeError ≠ none ∧ t'.sent = t.sent := by
    refine run_invariant
      (I := fun u => u.Sound ∧ u.writeError ≠ none ∧ u.sent = t.sent) ?_ ⟨hsound, he, rfl⟩ hgb h'
    rintro u a u' ⟨hu, hue, hus⟩ hgu hs
    obtain ⟨hue', hus'⟩ := hu.final_step hgu hs hue
    exact ⟨hu.step hgu hs, hue', hus'.trans hus⟩
  exact hfinal.2

/-- A write on the connection fails, and a later call is refused without touching it. -/
def failedWriteSchedule : List Action :=
  [.call ⟨94, [1]⟩, .writer 0 none, .writer 0 none, .writer 0 (some .eof)]

def refusedWriteSchedule : List Action :=
  [.writer 0 none, .call ⟨94, [2]⟩, .writer 1 none, .writer 1 none, .writer 1 none, .kex .go,
    .kex .go]

theorem writeError_final_refused :
    ∃ t t', exec step (new ⟨0, false⟩) failedWriteSchedule = some t ∧
      exec step t refusedWriteSchedule = some t' ∧ t.writeError = some .eof ∧
      t'.writeError ≠ none ∧ t'.sent = t.sent := by
  have hg : Along step Careful (new ⟨0, false⟩)
      (failedWriteSchedule ++ refusedWriteSchedule) := by
    iterate 9 refine along_cons trivial rfl ?_
    refine along_cons ⟨nofun, nofun⟩ rfl ?_
    exact along_cons ⟨nofun, nofun⟩ rfl trivial
  exact ⟨_, _, rfl, rfl, rfl, writeError_final _ hg rfl rfl (some_ne_none _)⟩

/-- A client whose key exchange fails while one packet is queued: up to the failure, and from
there to the end of the flush. -/
def failedExchangeSchedule : List Action :=
  [.kex .go, .kex .requestKex, .kex .go, .kex (.push [7] none),
    .call ⟨94, [1]⟩, .writer 0 none, .writer 0 none, .writer 0 none,
    .read (.packet ⟨msgKexInit, [9]⟩), .read .go, .read .go, .kex .startKex, .kex .go,
    .kex (.disagree (.text "ssh: no common algorithm")), .kex .go]

def flushSchedule : List Action := [.kex .go, .kex .go, .kex (.push [] none), .kex .go]

/-- The flush loop overwrites the error of the failed exchange and sends the queued packet. -/
theorem writeError_not_final :
    ∃ t t', exec step (new ⟨0, false⟩) failedExchangeSchedule = some t ∧
      exec step t flushSchedule = some t' ∧
      t.writeError = some (.text "ssh: no common algorithm") ∧ t'.writeError = none ∧
      t'.sent = t.sent ++ [⟨.app, ⟨94, [1]⟩, none⟩] :=
  ⟨_, _, rfl, rfl, rfl, rfl, rfl⟩

end HandshakeTransport

end XCryptoSsh
