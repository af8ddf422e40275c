import XCryptoSsh.HandshakeMutex

namespace XCryptoSsh
open Machine List Option
set_option autoImplicit true

inductive Phase where
  | start
  | init
  | message
  | keyed
  deriving DecidableEq, Repr

/-- One packet more; `early` admits application packets before the first KEXINIT. -/
def Phase.next (early : Bool) (ph : Phase) (w : ConnWrite) : Option Phase :=
  if w.packet.tag = msgKexInit then
    if ph = .start ∨ ph = .keyed then some .init else none
  else if w.packet.tag = msgNewKeys then
    if ph = .message then some .keyed else none
  else match w.origin with
    | .app => if ph = .keyed ∨ ph = .start ∧ early = true then some ph else none
    | .kex => if ph = .init then some .message else none
    | .kexInit => none

/-- The phase after a sequence of packets that is a beginning of
`(KEXINIT, key-exchange message, NEWKEYS, application packets)*`. -/
def wirePhase (early : Bool) (sent : List ConnWrite) : Option Phase :=
  sent.foldlM (Phase.next early) .start

def Packet.isKexMessage (p : Packet) : Bool := p.tag = 30 ∨ p.tag = 31

def Packet.plain (p : Packet) : Prop := p.tag ≠ msgKexInit ∧ p.tag ≠ msgNewKeys

theorem Packet.plain_of_isKexMessage {p : Packet} (h : p.isKexMessage = true) : p.plain := by
  unfold Packet.plain msgKexInit msgNewKeys
  obtain h | h := of_decide_eq_true h <;> rw [h] <;> decide

def ExchangePc.phase : ExchangePc → Phase
  | .parse | .skipGuess => .init
  | .kex todo => if .write ∈ todo then .init else .message
  | .prepare | .newKeysOut => .message
  | .newKeysIn => .keyed

def KexPc.Phases (sent : Bool) (ph : Phase) : KexPc → Prop
  | .exchange x => ph = x.phase
  | .lockFinish _ | .clear | .notify | .flush _ => ph = .keyed
  | _ => if sent then ph = .init else ph = .start ∨ ph = .keyed

def KexPc.busy : KexPc → Bool
  | .select _ true | .check _ | .exchange _ | .lockFinish _ => true
  | _ => false

def KexPc.resting : KexPc → Bool
  | .top | .select .. | .lockInit _ | .pushInit _ | .check _ => true
  | _ => false

def KexPc.healthy : KexPc → Bool
  | .record .. | .refuse _ | .lockFinish (some _) | .leave | .returned | .check none => false
  | _ => true

def ReadPc.healthy : ReadPc → Bool
  | .fail _ | .record | .closeStart | .returned => false
  | _ => true

def ReadPc.opens : ReadPc → Bool
  | .got true p => p.tag = msgKexInit
  | _ => true

def ReadPc.early : ReadPc → Bool
  | .read first | .got first _ => first
  | .offer _ _ | .await _ => true
  | _ => false

theorem KexPc.phases_of_resting {k : KexPc} (h : k.resting = true) :
    k.Phases sent ph = if sent then ph = .init else ph = .start ∨ ph = .keyed := by
  cases k <;> first | rfl | cases h

theorem wirePhase_append (h : wirePhase early sent = some ph) (w : ConnWrite) :
    wirePhase early (sent ++ [w]) = ph.next early w := by
  simp only [wirePhase] at h
  simp [wirePhase, foldlM_append, h]

namespace HandshakeTransport

variable {t t' : HandshakeTransport} {early : Bool} {ph : Phase}

def Smooth (t : HandshakeTransport) : Action → Prop
  | .writer _ r | .kex (.push _ r) => r = none
  | .kex (.wrote p r) => r = none ∧ (t.kex ≠ .exchange .newKeysOut → p.isKexMessage = true)
  | .kex (.packet p) => t.kex = .exchange .newKeysIn → p.tag = msgNewKeys
  | .read .go => t.reader.opens = true
  | .kex (.fail _) | .kex (.disagree _) | .read (.fail _) | .halt => False
  | _ => True

instance (t : HandshakeTransport) : (a : Action) → Decidable (t.Smooth a)
  | .writer _ r | .kex (.push _ r) => inferInstanceAs (Decidable (r = none))
  | .kex (.wrote p r) =>
    inferInstanceAs (Decidable
      (r = none ∧ (t.kex ≠ .exchange .newKeysOut → p.isKexMessage = true)))
  | .kex (.packet p) =>
    inferInstanceAs (Decidable (t.kex = .exchange .newKeysIn → p.tag = msgNewKeys))
  | .read .go => inferInstanceAs (Decidable (t.reader.opens = true))
  | .kex (.fail _) | .kex (.disagree _) | .read (.fail _) | .halt => .isFalse id
  | .kex .go | .kex .startKex | .kex .requestKex | .kex .stop | .kex (.parsed ..)
  | .kex (.result _) | .read .stop | .read (.packet _) | .call _ | .requestKeyExchange | .drain _
  | .receive => .isTrue trivial

inductive Exchanges (t : HandshakeTransport) :
    ExchangePc → KexChoice → HandshakeTransport → Prop where
  | parsed : Exchanges t .parse (.parsed a guess)
      { t with
        algorithms := some a
        kex := .exchange (if guess then .skipGuess else .kex (kexTraffic t.config.isServer)) }
  | skipped : Exchanges t .skipGuess (.packet p)
      { t with kex := .exchange (.kex (kexTraffic t.config.isServer)) }
  | kexRead : Exchanges t (.kex (.read :: todo)) (.packet p)
      { t with kex := .exchange (.kex todo) }
  | kexWrote (hp : p.isKexMessage = true) : Exchanges t (.kex (.write :: todo)) (.wrote p none)
      { t.connWrite .kex p none with kex := .exchange (.kex todo) }
  | result : Exchanges t (.kex []) (.result h)
      { t with sessionID := some (t.sessionID.getD h), kex := .exchange .prepare }
  | prepared : Exchanges t .prepare .go { t with kex := .exchange .newKeysOut }
  | newKeysOut : Exchanges t .newKeysOut (.wrote p none)
      { t.connWrite .kex ⟨msgNewKeys, []⟩ none with kex := .exchange .newKeysIn }
  | newKeysIn (hp : p.tag = msgNewKeys) : Exchanges t .newKeysIn (.packet p)
      { t with kex := .lockFinish none }

theorem stepKex_exchange (hk : t.kex = .exchange x) : t.stepKex c = t.stepExchange x c := by
  simp only [stepKex, hk]

theorem exchanges_of_smooth (hk : t.kex = .exchange x) (hg : t.Smooth (.kex c))
    (h : t.stepKex c = some t') : Exchanges t x c t' := by
  rw [stepKex_exchange hk] at h
  unfold stepExchange at h
  split at h
  · cases h
    exact .parsed
  · exact hg.elim
  · cases h
    exact .skipped
  · cases h
    exact .kexRead
  · obtain ⟨rfl, hp⟩ := hg
    cases h
    exact .kexWrote (hp (by rw [hk]; exact nofun))
  · cases h
    exact .result
  · cases h
    exact .prepared
  · obtain ⟨rfl, hp⟩ := hg
    cases h
    exact .newKeysOut
  · rw [if_pos (hg hk)] at h
    cases h
    exact .newKeysIn (hg hk)
  · cases h
  · exact hg.elim
  · cases h

/-- The state of the transport agrees with the phase of the wire, and nothing has failed. -/
structure Orderly (early : Bool) (t : HandshakeTransport) (ph : Phase) : Prop where
  exclusive : t.Exclusive
  wire : wirePhase early t.sent = some ph
  phase : t.kex.Phases t.sentInitMsg.isSome ph
  busy : t.kex.busy = true → t.sentInitMsg ≠ none
  inside : t.kex.inside = true → t.sentInitMsg = none
  traffic : ∀ todo, t.kex = .exchange (.kex todo) → todo.Nodup
  pushing : ∀ (i : Nat) (p : Packet), t.writers[i]? = some ⟨p, .push⟩ → t.sentInitMsg = none
  quiet : early = false → ph = .start → t.writers = []
  plain : ∀ w ∈ t.writers, (∃ r, w.pc = .done r) ∨ w.packet.plain
  pending : ∀ p ∈ t.pendingPackets, p.plain
  flushing : ∀ todo, t.kex = .flush todo → ∀ p ∈ todo, p.plain
  noError : t.writeError = none
  running : t.stop = false ∧ t.startKexClosed = false ∧ t.drain = .off
  kex : t.kex.healthy = true
  reader : t.reader.healthy = true
  answer : ∀ e, t.done ≠ some (some e)
  opening : ph = .start → t.reader.early = true ∧ t.incoming = [] ∧ t.done = none

theorem orderly_new (c : HandshakeConfig) (early : Bool) : Orderly early (new c) .start where
  exclusive := exclusive_new c
  wire := rfl
  phase := .inl rfl
  busy h := by cases h
  inside h := by cases h
  traffic _ h := by cases h
  pushing i p h := by simp [new] at h
  quiet _ _ := rfl
  plain w h := by cases h
  pending p h := by cases h
  flushing _ h := by cases h
  noError := rfl
  running := ⟨rfl, rfl, rfl⟩
  kex := rfl
  reader := rfl
  answer _ h := by cases h
  opening _ := ⟨rfl, rfl, rfl⟩

theorem Orderly.open_of_push {i : Nat} {p : Packet} (h : Orderly early t ph)
    (hw : t.writers[i]? = some ⟨p, .push⟩) :
    ph = .keyed ∨ ph = .start ∧ early = true := by
  have hs := h.pushing i p hw
  have ho := h.exclusive.not_kex_inside hw rfl
  have hp := h.phase
  have hne : t.writers ≠ [] := by
    intro he
    simp [he] at hw
  have hopen : ph = .start ∨ ph = .keyed := by
    cases hk : t.kex with
    | exchange x | lockFinish r => exact absurd hs (h.busy (by rw [hk]; rfl))
    | clear | notify | flush todo =>
      rw [hk] at ho
      cases ho
    | _ => simpa [hk, KexPc.Phases, hs] using hp
  obtain rfl | rfl := hopen
  · cases early with
    | true => exact .inr ⟨rfl, rfl⟩
    | false => exact absurd (h.quiet rfl rfl) hne
  · exact .inl rfl

theorem next_app (hp : p.plain) (ho : ph = .keyed ∨ ph = .start ∧ early = true) :
    ph.next early ⟨.app, p, r⟩ = some ph := by
  simp only [Phase.next, hp.1, hp.2, if_false]
  exact if_pos ho

theorem plain_setPc {ws : List Writer} (hp : ∀ w ∈ ws, (∃ r, w.pc = .done r) ∨ w.packet.plain)
    (hw : ws[i]? = some w) (hd : ∀ r, w.pc ≠ .done r) :
    ∀ w ∈ setPc ws i pc, (∃ r, w.pc = .done r) ∨ w.packet.plain := by
  intro w' hw'
  obtain ⟨j, hj⟩ := getElem?_of_mem hw'
  obtain ⟨-, hj⟩ | ⟨-, w₀, hw₀, rfl⟩ := setPc_inv hj
  · exact hp w' (mem_of_getElem? hj)
  cases hw.symm.trans hw₀
  obtain ⟨r, hr⟩ | hr := hp w (mem_of_getElem? hw)
  · exact absurd hr (hd r)
  · exact .inr hr

theorem Orderly.writerStep (h : Orderly early t ph) (hs : WriterStep t i none t') :
    Orderly early t' ph := by
  have he := h.exclusive.writerStep hs
  have quiet {w : Writer} {pc : WriterPc} (hw : t.writers[i]? = some w) :
      early = false → ph = .start → setPc t.writers i pc = [] := by
    intro hf hst
    rw [h.quiet hf hst] at hw
    simp at hw
  cases hs with
  | lock hw hmu | unlock hw =>
    exact { h with
      exclusive := he, quiet := quiet hw
      pushing := pushing_setPc h.pushing nofun
      plain := plain_setPc h.plain hw nofun }
  | refuse hw hne => cases h.noError.symm.trans hne
  | count hw hne hs =>
    exact { h with
      exclusive := he, quiet := quiet hw
      pushing := pushing_setPc h.pushing (fun _ => hs)
      plain := plain_setPc h.plain hw nofun }
  | @queue p hw hne hs =>
    have hp : p.plain := by
      obtain ⟨r, hr⟩ | hr := h.plain _ (mem_of_getElem? hw)
      · cases hr
      · exact hr
    refine { h with
      exclusive := he, quiet := quiet hw
      pushing := pushing_setPc h.pushing nofun
      plain := plain_setPc h.plain hw nofun
      pending := ?_ }
    intro q hq
    obtain hq | hq := mem_append.mp hq
    · exact h.pending q hq
    · exact mem_singleton.mp hq ▸ hp
  | @push p hw =>
    have hp : p.plain := by
      obtain ⟨r, hr⟩ | hr := h.plain _ (mem_of_getElem? hw)
      · cases hr
      · exact hr
    have hwire : wirePhase early (t.connWrite .app p none).sent = some ph :=
      (wirePhase_append h.wire _).trans (next_app hp (h.open_of_push hw))
    exact { h with
      exclusive := he, quiet := quiet hw, wire := hwire
      noError := h.noError
      pushing := pushing_setPc h.pushing nofun
      plain := plain_setPc h.plain hw nofun }

theorem nodup_kexTraffic (isServer : Bool) : (kexTraffic isServer).Nodup := by
  cases isServer <;> decide

theorem phase_kexTraffic (isServer : Bool) : (ExchangePc.kex (kexTraffic isServer)).phase =
    .init := by
  cases isServer <;> rfl

theorem Orderly.exchange (h : Orderly early t ph) (hk : t.kex = .exchange x) (y : ExchangePc)
    (ws : List ConnWrite) (hs : t'.sent = t.sent ++ ws)
    (hw : wirePhase early (t.sent ++ ws) = some y.phase) (hy : ∀ todo, y = .kex todo → todo.Nodup)
    (ht : t' = { t with algorithms := a, sessionID := sid, sent := t'.sent, kex := .exchange y }) :
    Orderly early t' y.phase := by
  have hne : x.phase ≠ .start := by
    cases x with
    | kex todo =>
      simp only [ExchangePc.phase]
      split <;> decide
    | _ => decide
  have hph : ph ≠ .start := by
    have := h.phase
    rw [hk] at this
    exact this ▸ hne
  have hye : y.phase ≠ .start := by
    cases y with
    | kex todo =>
      simp only [ExchangePc.phase]
      split <;> decide
    | _ => decide
  have hi := h.busy (by rw [hk]; rfl)
  rw [ht, hs]
  exact {
    exclusive := ⟨h.exclusive.writer, nofun⟩
    wire := hw
    phase := rfl
    busy := fun _ => hi
    inside := nofun
    traffic := fun todo htodo => hy todo (by cases htodo; rfl)
    pushing := h.pushing
    quiet := fun _ hc => absurd hc hye
    plain := h.plain
    pending := h.pending
    flushing := nofun
    noError := h.noError
    running := h.running
    kex := rfl
    reader := h.reader
    answer := h.answer
    opening := fun hc => absurd hc hye }

theorem Orderly.exchanges (h : Orderly early t ph) (hk : t.kex = .exchange x)
    (hs : Exchanges t x c t') : ∃ ph', Orderly early t' ph' := by
  have hph : ph = x.phase := by
    have := h.phase
    rwa [hk] at this
  have stay {y : ExchangePc} (hy : y.phase = x.phase) :
      wirePhase early (t.sent ++ []) = some y.phase := by
    rw [append_nil, h.wire, hy, hph]
  cases hs with
  | @parsed a guess =>
    refine ⟨_, h.exchange hk _ [] (append_nil _).symm (stay ?_) ?_ rfl⟩
    · cases guess
      · exact phase_kexTraffic _
      · rfl
    intro todo ht
    cases guess
    · cases ht
      exact nodup_kexTraffic _
    · cases ht
  | skipped =>
    refine ⟨_, h.exchange hk _ [] (append_nil _).symm (stay (phase_kexTraffic _)) ?_ rfl⟩
    intro todo ht
    cases ht
    exact nodup_kexTraffic _
  | @kexRead todo p =>
    refine ⟨_, h.exchange hk (.kex todo) [] (append_nil _).symm (stay ?_) ?_ rfl⟩
    · simp [ExchangePc.phase]
    intro todo' ht
    cases ht
    exact (nodup_cons.mp (h.traffic _ hk)).2
  | @kexWrote todo p hp =>
    have hn := nodup_cons.mp (h.traffic _ hk)
    have hplain := Packet.plain_of_isKexMessage hp
    refine ⟨_, h.exchange hk (.kex todo) [⟨.kex, p, none⟩] rfl ?_ ?_ rfl⟩
    · rw [wirePhase_append h.wire, hph]
      simp [Phase.next, hplain.1, hplain.2, ExchangePc.phase, hn.1]
    intro todo' ht
    cases ht
    exact hn.2
  | result =>
    exact ⟨_, h.exchange hk .prepare [] (append_nil _).symm (stay rfl)
      nofun rfl⟩
  | prepared =>
    exact ⟨_, h.exchange hk .newKeysOut [] (append_nil _).symm (stay rfl)
      nofun rfl⟩
  | newKeysOut =>
    refine ⟨_, h.exchange hk .newKeysIn [⟨.kex, ⟨msgNewKeys, []⟩, none⟩] rfl ?_
      nofun rfl⟩
    rw [wirePhase_append h.wire, hph]
    rfl
  | newKeysIn hp =>
    subst hph
    exact ⟨.keyed, {
      exclusive := ⟨h.exclusive.writer, nofun⟩
      wire := h.wire
      phase := rfl
      busy := fun _ => h.busy (by rw [hk]; rfl)
      inside := nofun
      traffic := nofun
      pushing := h.pushing
      quiet := nofun
      plain := h.plain
      pending := h.pending
      flushing := nofun
      noError := h.noError
      running := h.running
      kex := rfl
      reader := h.reader
      answer := h.answer
      opening := fun hc => by cases hc }⟩

theorem Orderly.move (h : Orderly early t ph) (hk : t.kex.resting = true) (hr : k.resting = true)
    (hb : k.busy = true → t.sentInitMsg ≠ none) (hi : k.inside = true → t.sentInitMsg = none)
    (hh : k.healthy = true) (he : t'.Exclusive)
    (ht : t' = { t with mu := m, startKex := s, requestKex := q, kex := k }) :
    Orderly early t' ph := by
  have hp := h.phase
  rw [KexPc.phases_of_resting hk] at hp
  subst ht
  exact { h with
    exclusive := he
    phase := (KexPc.phases_of_resting hr).mpr hp
    busy := hb
    inside := hi
    traffic := fun todo hc => by
      change k = _ at hc
      rw [hc] at hr
      cases hr
    flushing := fun todo hc => by
      change k = _ at hc
      rw [hc] at hr
      cases hr
    kex := hh }

theorem afterInit_resting (request : Option Packet) : (afterInit request).resting = true := by
  cases request <;> rfl

theorem afterInit_healthy (request : Option Packet) : (afterInit request).healthy = true := by
  cases request <;> rfl

theorem Orderly.kexStep (h : Orderly early t ph) (hg : t.Smooth (.kex c)) (hs : KexStep t c t')
    (hx : ∀ x, t.kex ≠ .exchange x) : ∃ ph', Orderly early t' ph' := by
  have he := h.exclusive.kexStep hs
  have hh := h.kex
  have hrun := h.running
  cases hs with
  | enter hk hmu hne | startUnsent hk hs | requestUnsent hk hr =>
    exact ⟨ph, h.move (by rw [hk]; rfl) rfl (fun hc => by cases hc) (fun hc => by cases hc) rfl he
      rfl⟩
  | startSent hk hs | requestSent hk hr =>
    exact ⟨ph, h.move (by rw [hk]; rfl) rfl (fun _ => h.busy (by rw [hk]; rfl))
      (fun hc => by cases hc) rfl he rfl⟩
  | initAlready hk hmu hs =>
    exact ⟨ph, h.move (by rw [hk]; rfl) (afterInit_resting _) (fun _ => hs)
      (fun hc => by cases (afterInit_outside _).symm.trans hc) (afterInit_healthy _) he rfl⟩
  | initLock hk hmu hs =>
    exact ⟨ph, h.move (by rw [hk]; rfl) rfl (fun hc => by cases hc) (fun _ => hs) rfl he rfl⟩
  | @initPushed request body hk =>
    have hi : t.sentInitMsg = none := h.inside (by rw [hk]; rfl)
    have hp : ph = .start ∨ ph = .keyed := by
      have := h.phase
      rwa [hk, hi] at this
    have hw : wirePhase early (t.connWrite .kexInit ⟨msgKexInit, body⟩ none).sent = some .init := by
      rw [connWrite, wirePhase_append h.wire]
      exact if_pos hp
    exact ⟨.init, { h with
      exclusive := he
      wire := hw
      phase := (KexPc.phases_of_resting (afterInit_resting request)).mpr rfl
      busy := fun _ => some_ne_none _
      inside := fun hc => by cases (afterInit_outside _).symm.trans hc
      traffic := fun todo hc => by cases request <;> cases hc
      pushing := fun i p hp => by
        -- the mutex keeps every call out while KEXINIT is passed on
        have := h.exclusive.not_kex_inside hp rfl
        rw [hk] at this
        cases this
      quiet := by simp
      flushing := fun todo hc => by cases request <;> cases hc
      kex := afterInit_healthy request
      opening := fun hc => by cases hc }⟩
  | checkPass hk hmu hne =>
    have hi : t.sentInitMsg ≠ none := h.busy (by rw [hk]; rfl)
    have hp : ph = .init := by
      have := h.phase
      rw [hk, KexPc.phases_of_resting rfl, isSome_iff_ne_none.mpr hi] at this
      exact this
    exact ⟨ph, { h with
      exclusive := he
      phase := hp
      busy := fun _ => hi
      inside := by rintro ⟨⟩
      traffic := by simp
      flushing := by simp
      kex := rfl }⟩
  | @finish r n b hk hmu =>
    have hr : r = none := by
      rw [hk] at hh
      cases r with
      | none => rfl
      | some e => cases hh
    have hp : ph = .keyed := (hk ▸ h.phase :)
    exact ⟨ph, { h with
      exclusive := he
      phase := hp
      busy := by rintro ⟨⟩
      inside := fun _ => rfl
      traffic := by simp
      pushing := fun _ _ _ => rfl
      flushing := by simp
      noError := hr
      kex := rfl }⟩
  | clear hk => exact ⟨ph, { h with exclusive := he }⟩
  | cleared hk =>
    have hp : ph = .keyed := (hk ▸ h.phase :)
    exact ⟨ph, { h with
      exclusive := he
      phase := hp
      busy := by rintro ⟨⟩
      inside := fun _ => h.inside (by rw [hk]; rfl)
      traffic := by simp
      flushing := by simp
      kex := rfl }⟩
  | notify hk =>
    have hp : ph = .keyed := (hk ▸ h.phase :)
    subst hp
    exact ⟨.keyed, { h with
      exclusive := he
      phase := rfl
      busy := by rintro ⟨⟩
      inside := fun _ => h.inside (by rw [hk]; rfl)
      traffic := by simp
      flushing := fun todo hc => by
        cases hc
        exact h.pending
      kex := rfl
      answer := fun e hc => by
        change some t.writeError = some (some e) at hc
        rw [h.noError] at hc
        cases hc
      opening := fun hc => by cases hc }⟩
  | @flush p todo body hk r =>
    have hr : r = none := hg
    subst hr
    have hp : ph = .keyed := (hk ▸ h.phase :)
    have hplain := h.flushing _ hk
    have hw : wirePhase early (t.connWrite .app p none).sent = some ph :=
      (wirePhase_append h.wire _).trans (next_app (hplain p mem_cons_self) (.inl hp))
    exact ⟨ph, { h with
      exclusive := he
      wire := hw
      phase := hp
      busy := by rintro ⟨⟩
      inside := fun _ => h.inside (by rw [hk]; rfl)
      traffic := by simp
      flushing := fun todo' hc => by
        cases hc
        exact fun q hq => hplain q (mem_cons_of_mem p hq)
      noError := rfl
      kex := rfl }⟩
  | unlock hk =>
    have hp : ph = .keyed := (hk ▸ h.phase :)
    have hi : t.sentInitMsg = none := h.inside (by rw [hk]; rfl)
    exact ⟨ph, { h with
      exclusive := he
      phase := (KexPc.phases_of_resting rfl).mpr (by rw [hi]; exact .inr hp)
      busy := by rintro ⟨⟩
      inside := by rintro ⟨⟩
      traffic := by simp
      pending := by simp
      flushing := by simp
      kex := rfl }⟩
  | exchange hk _ => exact absurd hk (hx _)
  | giveUp hk hmu hne => exact absurd h.noError hne
  | startClosed hk hs hc => cases hrun.2.1.symm.trans hc
  | stop hk hs => cases hrun.1.symm.trans hs
  | initFailed hk => cases hg
  | checkRefuse hk hmu hne | checkLeave hk hmu hne => cases h.noError.symm.trans hne
  | record hk hmu | refuse hk | leave hk =>
    rw [hk] at hh
    cases hh

theorem Orderly.readStep (h : Orderly early t ph) (hg : t.Smooth (.read c)) (hs : ReadStep t c t') :
    Orderly early t' ph := by
  have he : t'.Exclusive := by
    cases hs <;> exact ⟨h.exclusive.writer, h.exclusive.kex⟩
  have hh := h.reader
  have hrun := h.running
  have opening {r : ReadPc} (hr : t.reader = r) (hf : r.early = false) : ph ≠ .start := by
    intro hc
    have := (h.opening hc).1
    rw [hr, hf] at this
    cases this
  cases hs with
  | @read first p hr =>
    refine { h with exclusive := he, reader := rfl, opening := ?_ }
    intro hc
    have := h.opening hc
    rw [hr] at this
    exact this
  | @got first p n b q hr =>
    refine { h with exclusive := he, reader := ?_, opening := ?_ }
    · simp only [dispatch, afterRead]
      split
      · rename_i hf
        obtain ⟨rfl, hf⟩ := hf
        rw [Smooth, hr] at hg
        exact absurd (of_decide_eq_true hg) hf
      · split
        · split <;> rfl
        · rfl
    · intro hc
      have ho := h.opening hc
      rw [hr] at ho
      have hfirst : first = true := ho.1
      subst hfirst
      rw [Smooth, hr] at hg
      simp [dispatch, of_decide_eq_true hg, ReadPc.early, ho.2]
  | offer hr hs =>
    refine { h with exclusive := he, reader := rfl, answer := nofun, opening := ?_ }
    intro hc
    exact ⟨rfl, (h.opening hc).2.1, rfl⟩
  | awaitOk hr hd =>
    refine { h with exclusive := he, reader := ?_, answer := nofun, opening := ?_ }
    · simp only [afterRead]
      split <;> rfl
    · intro hc
      cases (h.opening hc).2.2.symm.trans hd
  | deliver hr hl =>
    refine { h with exclusive := he, reader := rfl, opening := ?_ }
    intro hc
    exact absurd hc (opening hr rfl)
  | awaitFail hr hd => exact absurd hd (h.answer _)
  | readFail hr => exact hg.elim
  | offerStop hr hs | awaitStop hr hs | deliverStop hr hs => cases hrun.1.symm.trans hs
  | fail hr | record hr hmu hw | closeStart hr =>
    rw [hr] at hh
    cases hh

theorem Orderly.step (h : Orderly early t ph) (hg : t.Smooth a)
    (hc : early = false → ∀ p, a = .call p → ph ≠ .start) (hs : t.step a = some t') :
    ∃ ph', Orderly early t' ph' := by
  have he := h.exclusive.step hs
  cases step_cases hs with
  | @call p =>
    refine ⟨ph, { h with exclusive := he, pushing := ?_, quiet := ?_, plain := ?_ }⟩
    · intro i q hq
      simp only [callWritePacket, getElem?_append] at hq
      split at hq
      · exact h.pushing i q hq
      rw [getElem?_singleton] at hq
      split at hq
      · revert hq
        split
        · intro hq; cases hq
        · split <;> intro hq <;> cases hq
      · cases hq
    · intro hf hst
      exact absurd hst (hc hf p rfl)
    · intro w hw
      obtain hw | hw := mem_append.mp hw
      · exact h.plain w hw
      rw [mem_singleton.mp hw]
      split
      · exact .inl ⟨_, rfl⟩
      rename_i hk
      split
      · exact .inl ⟨_, rfl⟩
      · rename_i hn
        exact .inr ⟨hk, hn⟩
  | @writer i r _ hs =>
    have hr : r = none := hg
    subst hr
    exact ⟨ph, h.writerStep hs⟩
  | kex hk =>
    by_cases hx : ∃ x, t.kex = .exchange x
    · obtain ⟨x, hx⟩ := hx
      exact h.exchanges hx (exchanges_of_smooth hx hg hs)
    · exact h.kexStep hg hk fun x hk => hx ⟨x, hk⟩
  | read hs => exact ⟨ph, h.readStep hg hs⟩
  | drain hs =>
    have hd := h.running.2.2
    cases hs with
    | stop hst => cases h.running.1.symm.trans hst
    | take hd' _ | spin hd' _ | reply hd' => cases hd.symm.trans hd'
  | requestKeyExchange => exact ⟨ph, { h with exclusive := he }⟩
  | receive hin =>
    refine ⟨ph, { h with exclusive := he, opening := ?_ }⟩
    intro hst
    cases (h.opening hst).2.1.symm.trans hin
  | halt => exact hg.elim

theorem sent_step (hs : t.step a = some t') : t.sent <+: t'.sent := by
  cases step_cases hs with
  | writer hs =>
    cases hs with
    | push hw => exact prefix_append _ _
    | _ => exact prefix_rfl
  | kex hs =>
    cases hs with
    | initPushed hk | initFailed hk | flush hk => exact prefix_append _ _
    | exchange hk hx =>
      cases hx with
      | wrote p x | writeFailed p e => exact prefix_append _ _
      | _ => exact prefix_rfl
    | _ => exact prefix_rfl
  | read hs | drain hs => cases hs <;> exact prefix_rfl
  | call | requestKeyExchange | halt | receive => exact prefix_rfl

end HandshakeTransport

theorem Phase.next_ne_start (ph : Phase) (w : ConnWrite) : ph.next false w ≠ some .start := by
  intro h
  unfold Phase.next at h
  split at h
  · split at h <;> cases h
  split at h
  · split at h <;> cases h
  split at h
  · simp only [Bool.false_eq_true, and_false, or_false, ite_none_right_eq_some,
      some.injEq] at h
    obtain ⟨rfl, h⟩ := h
    cases h
  · split at h <;> cases h
  · cases h

theorem sent_of_wirePhase_start (h : wirePhase false sent = some .start) : sent = [] := by
  cases sent using reverseRecOn with
  | nil => rfl
  | append_singleton sent w =>
    simp only [wirePhase, foldlM_append, foldlM_cons, foldlM_nil] at h
    obtain ⟨ph, -, hph⟩ := bind_eq_some_iff.mp h
    exact absurd (by simpa using hph) (ph.next_ne_start w)

/-- A transport with callers that write after `waitSession` has returned. -/
structure Session where
  transport : HandshakeTransport
  up : Bool
  deriving DecidableEq, Repr

namespace Session

open HandshakeTransport (Action Orderly)

variable {s s' : Session}

/-- `waitSession` takes the first packet and returns without an error if it is msgNewKeys. -/
def step (s : Session) (a : Action) : Option Session :=
  match a with
  | .call _ => if s.up then (s.transport.step a).map fun t => { s with transport := t } else none
  | .receive => (s.transport.step a).map fun t =>
      { transport := t, up := s.up || s.transport.incoming.head?.map Packet.tag == some msgNewKeys }
  | _ => (s.transport.step a).map fun t => { s with transport := t }

def new (c : HandshakeConfig) : Session := ⟨.new c, false⟩

structure Ordered (s : Session) (ph : Phase) : Prop where
  orderly : Orderly false s.transport ph
  up : s.up = true → s.transport.sent ≠ []

theorem Ordered.phase_ne_start (h : s.Ordered ph) (hu : s.up = true) : ph ≠ .start := by
  rintro rfl
  exact h.up hu (sent_of_wirePhase_start h.orderly.wire)

theorem step_cases (h : s.step a = some s') : s.transport.step a = some s'.transport ∧
    (∀ p, a = .call p → s.up = true) ∧
    (s'.up = true → s.up = true ∨ s.transport.incoming ≠ []) := by
  unfold step at h
  split at h
  · simp only [ite_none_right_eq_some, map_eq_some_iff] at h
    obtain ⟨hu, t, ht, rfl⟩ := h
    exact ⟨ht, fun _ _ => hu, .inl⟩
  · obtain ⟨t, ht, rfl⟩ := map_eq_some_iff.mp h
    refine ⟨ht, nofun, fun _ => .inr ?_⟩
    intro hi
    simp [HandshakeTransport.step, hi] at ht
  · rename_i hc hr
    obtain ⟨t, ht, rfl⟩ := map_eq_some_iff.mp h
    exact ⟨ht, fun p hp => absurd hp (hc p), .inl⟩

theorem Ordered.step (h : s.Ordered ph) (hg : s.transport.Smooth a) (hs : s.step a = some s') :
    ∃ ph', s'.Ordered ph' := by
  obtain ⟨ht, hcall, hup⟩ := step_cases hs
  obtain ⟨ph', ho⟩ := h.orderly.step hg (fun _ p hp => h.phase_ne_start (hcall p hp)) ht
  refine ⟨ph', ho, ?_⟩
  intro hu
  have hne : s.transport.sent ≠ [] := by
    obtain hu | hi := hup hu
    · exact h.up hu
    intro hsent
    have hw := h.orderly.wire
    rw [hsent] at hw
    cases hw
    exact hi (h.orderly.opening rfl).2.1
  intro hsent
  have hp := HandshakeTransport.sent_step ht
  rw [hsent, prefix_nil] at hp
  exact hne hp

/-- Without failures and stops, a transport passes to its connection a beginning of
`(KEXINIT, key-exchange message, NEWKEYS, application packets)*`. -/
theorem wirePhase_sent (c : HandshakeConfig) (as : List Action)
    (hg : Along step (fun s a => s.transport.Smooth a) (new c) as)
    (h : exec step (new c) as = some s) : (wirePhase false s.transport.sent).isSome := by
  have hi : ∃ ph, s.Ordered ph := by
    refine run_invariant (I := fun s => ∃ ph, s.Ordered ph) ?_
      ⟨.start, HandshakeTransport.orderly_new c false, nofun⟩ hg h
    rintro u a u' ⟨ph, hu⟩ hga hs
    exact hu.step hga hs
  obtain ⟨ph, hph⟩ := hi
  rw [hph.orderly.wire]
  rfl

/-- A first key exchange, a packet, and a second exchange that the peer asks for while a second
packet is written. -/
def rekeyingSchedule : List Action :=
  HandshakeTransport.exchangeSchedule ++
    [.kex .go, .kex .go, .kex .go, .read .go, .read .go, .receive,
      .call ⟨94, [1]⟩, .writer 0 none, .writer 0 none, .writer 0 none, .writer 0 none,
      .read (.packet ⟨msgKexInit, [8]⟩), .read .go, .read .go, .kex .startKex, .kex .go,
      .kex (.push [6] none), .call ⟨94, [2]⟩, .writer 1 none, .writer 1 none, .writer 1 none]

theorem wirePhase_sent_rekeying :
    ∃ s, exec step (new ⟨0, false⟩) rekeyingSchedule = some s ∧
      s.transport.sent.length = 5 ∧ (wirePhase false s.transport.sent).isSome := by
  have hg : Along step (fun s a => s.transport.Smooth a) (new ⟨0, false⟩)
      rekeyingSchedule :=
    by decide +kernel
  exact ⟨_, rfl, rfl, wirePhase_sent ⟨0, false⟩ rekeyingSchedule hg rfl⟩

end Session

end XCryptoSsh
