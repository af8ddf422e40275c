import XCryptoSsh.HandshakeTransport

namespace XCryptoSsh
open Machine Option
set_option autoImplicit true

namespace HandshakeTransport

variable {t : HandshakeTransport}

section

variable (t : HandshakeTransport)

theorem countWriteBytes_eq (p : Packet) :
    ∃ b q, t.countWriteBytes p = { t with writeBytesLeft := b, requestKex := q } := by
  unfold countWriteBytes
  split
  · exact ⟨_, t.requestKex, rfl⟩
  · exact ⟨t.writeBytesLeft, true, rfl⟩

theorem countWritePacket_eq :
    ∃ n q, t.countWritePacket = { t with writePacketsLeft := n, requestKex := q } := by
  unfold countWritePacket
  split
  · exact ⟨_, t.requestKex, rfl⟩
  · exact ⟨t.writePacketsLeft, true, rfl⟩

theorem countReadPacket_eq :
    ∃ n q, t.countReadPacket = { t with readPacketsLeft := n, requestKex := q } := by
  unfold countReadPacket
  split
  · exact ⟨_, t.requestKex, rfl⟩
  · exact ⟨t.readPacketsLeft, true, rfl⟩

theorem countReadBytes_eq (p : Packet) :
    ∃ b q, t.countReadBytes p = { t with readBytesLeft := b, requestKex := q } := by
  unfold countReadBytes
  split
  · exact ⟨_, t.requestKex, rfl⟩
  · exact ⟨t.readBytesLeft, true, rfl⟩

theorem recordWriteError_eq (e : Err) :
    t.recordWriteError e = { t with writeError := some (t.writeError.getD e) } := by
  unfold recordWriteError
  cases h : t.writeError with
  | none => rfl
  | some e' =>
    simp only [reduceCtorEq, ↓reduceIte, getD_some]
    rw [← h]

end

inductive WriterStep (t : HandshakeTransport) (i : Nat) (r : Option Err) :
    HandshakeTransport → Prop where
  | lock (hw : t.writers[i]? = some ⟨p, .lock⟩) (hmu : t.mu = none) : WriterStep t i r
      { t.setWriter i .check with mu := some (.writer i), took := t.took ++ [i] }
  | refuse (hw : t.writers[i]? = some ⟨p, .check⟩) (he : t.writeError = some e) :
      WriterStep t i r (t.setWriter i (.unlock (some e)))
  | count (hw : t.writers[i]? = some ⟨p, .check⟩) (he : t.writeError = none)
      (hs : t.sentInitMsg = none) : WriterStep t i r
      { t.setWriter i .push with writeBytesLeft := b, writePacketsLeft := n, requestKex := q }
  | queue (hw : t.writers[i]? = some ⟨p, .check⟩) (he : t.writeError = none)
      (hs : t.sentInitMsg ≠ none) : WriterStep t i r
      { t.setWriter i (.unlock none) with pendingPackets := t.pendingPackets ++ [p] }
  | push (hw : t.writers[i]? = some ⟨p, .push⟩) : WriterStep t i r
      { (t.connWrite .app p r).setWriter i (.unlock none) with
        writeError := r.or t.writeError }
  | unlock (hw : t.writers[i]? = some ⟨p, .unlock res⟩) : WriterStep t i r
      { t.setWriter i (.done res) with mu := none }

theorem stepWriter_cases (h : t.stepWriter i r = some t') : WriterStep t i r t' := by
  unfold stepWriter at h
  split at h
  · cases h
  rename_i w hw
  obtain ⟨p, pc⟩ := w
  cases pc with
  | lock =>
    obtain ⟨hmu, rfl⟩ := of_guard h
    exact .lock hw hmu
  | check =>
    cases he : t.writeError with
    | some e =>
      simp only [he, some.injEq] at h
      exact h ▸ .refuse hw he
    | none =>
      simp only [he] at h
      split at h
      · rename_i hs
        obtain ⟨b, q, hb⟩ := t.countWriteBytes_eq p
        rw [hb] at h
        obtain ⟨n, q', hn⟩ := countWritePacket_eq { t with writeBytesLeft := b, requestKex := q }
        rw [hn, some.injEq] at h
        exact h ▸ .count hw he hs
      · rename_i hs
        simp only [some.injEq] at h
        exact h ▸ .queue hw he hs
  | push =>
    cases r with
    | none | some e =>
      simp only [some.injEq] at h
      exact h ▸ .push hw
  | unlock res =>
    simp only [some.injEq] at h
    exact h ▸ .unlock hw
  | done => cases h

/-- All that a step of `enterKeyExchange` can do: it may write to the connection, and it goes on
or returns. -/
inductive ExchangeStep (t : HandshakeTransport) : KexChoice → HandshakeTransport → Prop where
  | proceed (c : KexChoice) (x : ExchangePc) :
      ExchangeStep t c { t with algorithms := a, sessionID := sid, kex := .exchange x }
  | wrote (p : Packet) (x : ExchangePc) : ExchangeStep t (.wrote q none)
      { t.connWrite .kex p none with kex := .exchange x }
  | writeFailed (p : Packet) (e : Err) : ExchangeStep t (.wrote q (some e))
      { t.connWrite .kex p (some e) with kex := .lockFinish (some e) }
  | completed (hq : q.tag = msgNewKeys) : ExchangeStep t (.packet q)
      { t with kex := .lockFinish none }
  | unexpected (hq : q.tag ≠ msgNewKeys) (e : Err) : ExchangeStep t (.packet q)
      { t with kex := .lockFinish (some e) }
  | disagreed (e : Err) : ExchangeStep t (.disagree e)
      { t with algorithms := none, kex := .lockFinish (some e) }
  | failed (e : Err) : ExchangeStep t (.fail e) { t with kex := .lockFinish (some e) }

theorem stepExchange_cases (h : t.stepExchange x c = some t') : ExchangeStep t c t' := by
  unfold stepExchange at h
  split at h
  · cases h; exact .proceed _ _
  · cases h; exact .disagreed _
  · cases h; exact .proceed _ _
  · cases h; exact .proceed _ _
  · rename_i p r
    cases r with
    | none => cases h; exact .wrote _ _
    | some e => cases h; exact .writeFailed _ _
  · cases h; exact .proceed _ _
  · cases h; exact .proceed _ _
  · rename_i p r
    cases r with
    | none => cases h; exact .wrote _ _
    | some e => cases h; exact .writeFailed _ _
  · split at h
    · rename_i hq
      cases h
      exact .completed hq
    · rename_i hq
      cases h
      exact .unexpected hq _
  · cases h
  · cases h; exact .failed _
  · cases h

inductive KexStep (t : HandshakeTransport) : KexChoice → HandshakeTransport → Prop where
  | enter (hk : t.kex = .top) (hmu : t.mu = none) (he : t.writeError = none) :
      KexStep t .go { t with kex := .select none false }
  | giveUp (hk : t.kex = .top) (hmu : t.mu = none) (he : t.writeError ≠ none) :
      KexStep t .go { t with kex := .leave }
  | startUnsent (hk : t.kex = .select request false) (hs : t.startKex = some p) :
      KexStep t .startKex { t with startKex := none, kex := .lockInit (some p) }
  | startSent (hk : t.kex = .select request true) (hs : t.startKex = some p) :
      KexStep t .startKex { t with startKex := none, kex := .check (some p) }
  | startClosed (hk : t.kex = .select request b) (hs : t.startKex = none)
      (hc : t.startKexClosed = true) : KexStep t .startKex { t with kex := .leave }
  | requestUnsent (hk : t.kex = .select request false) (hr : t.requestKex = true) :
      KexStep t .requestKex { t with requestKex := false, kex := .lockInit request }
  | requestSent (hk : t.kex = .select request true) (hr : t.requestKex = true) :
      KexStep t .requestKex { t with requestKex := false, kex := .select request true }
  | stop (hk : (∃ request sent, t.kex = .select request sent) ∨ (∃ e, t.kex = .refuse e) ∨
      t.kex = .notify) (hs : t.stop = true) : KexStep t .stop { t with kex := .returned }
  | initAlready (hk : t.kex = .lockInit request) (hmu : t.mu = none)
      (hs : t.sentInitMsg ≠ none) : KexStep t .go { t with kex := afterInit request }
  | initLock (hk : t.kex = .lockInit request) (hmu : t.mu = none)
      (hs : t.sentInitMsg = none) :
      KexStep t .go { t with mu := some .kexLoop, kex := .pushInit request }
  | initPushed (hk : t.kex = .pushInit request) : KexStep t (.push body none)
      { t.connWrite .kexInit ⟨msgKexInit, body⟩ none with
        mu := none, sentInitMsg := some ⟨msgKexInit, body⟩, kex := afterInit request }
  | initFailed (hk : t.kex = .pushInit request) : KexStep t (.push body (some e))
      { t.connWrite .kexInit ⟨msgKexInit, body⟩ (some e) with
        mu := none, kex := .record e request }
  | record (hk : t.kex = .record e request) (hmu : t.mu = none) : KexStep t .go
      { t with writeError := some (t.writeError.getD e), kex := .check request }
  | checkLeave (hk : t.kex = .check none) (hmu : t.mu = none) (he : t.writeError = some e) :
      KexStep t .go { t with kex := .leave }
  | checkRefuse (hk : t.kex = .check (some p)) (hmu : t.mu = none)
      (he : t.writeError = some e) : KexStep t .go { t with kex := .refuse e }
  | checkPass (hk : t.kex = .check (some p)) (hmu : t.mu = none) (he : t.writeError = none) :
      KexStep t .go { t with kex := .exchange .parse }
  | refuse (hk : t.kex = .refuse e) :
      KexStep t .go { t with done := some (some e), kex := .leave }
  | exchange (hk : t.kex = .exchange x) (hx : ExchangeStep t c u) : KexStep t c u
  | finish (hk : t.kex = .lockFinish r) (hmu : t.mu = none) : KexStep t .go
      { t with mu := some .kexLoop, writeError := r, sentInitMsg := none,
               writePacketsLeft := n, writeBytesLeft := b, kex := .clear }
  | clear (hk : t.kex = .clear) : KexStep t .go { t with requestKex := false }
  | cleared (hk : t.kex = .clear) : KexStep t .go { t with kex := .notify }
  | notify (hk : t.kex = .notify) : KexStep t .go
      { t with done := some t.writeError, kex := .flush t.pendingPackets }
  | flush (hk : t.kex = .flush (p :: todo)) (r : Option Err) : KexStep t (.push body r)
      { t.connWrite .app p r with
        writeError := r, kex := .flush (if r = none then todo else []) }
  | unlock (hk : t.kex = .flush []) : KexStep t .go
      { t with pendingPackets := [], mu := none, kex := .top }
  | leave (hk : t.kex = .leave) : KexStep t .go
      { t with drain := .select, connClosed := true, kex := .returned }

theorem stepKex_cases (h : t.stepKex c = some t') : KexStep t c t' := by
  unfold stepKex at h
  split at h
  · rename_i hk
    obtain ⟨hmu, rfl⟩ := of_guard h
    by_cases he : t.writeError = none
    · rw [if_pos he]
      exact .enter hk hmu he
    · rw [if_neg he]
      exact .giveUp hk hmu he
  · rename_i sent hk
    split at h
    · rename_i p hs
      cases h
      cases sent with
      | false => exact .startUnsent hk hs
      | true => exact .startSent hk hs
    · rename_i hs
      obtain ⟨hc, rfl⟩ := of_guard h
      exact .startClosed hk hs hc
  · rename_i request sent hk
    obtain ⟨hr, rfl⟩ := of_guard h
    cases sent with
    | false => exact .requestUnsent hk hr
    | true => exact .requestSent hk hr
  · rename_i hk
    obtain ⟨hs, rfl⟩ := of_guard h
    exact .stop (.inl ⟨_, _, hk⟩) hs
  · rename_i request hk
    simp only [ite_none_right_eq_some] at h
    obtain ⟨hmu, h⟩ := h
    split at h
    · rename_i hs
      cases h
      exact .initAlready hk hmu (by simp [hs])
    · rename_i hs
      cases h
      exact .initLock hk hmu hs
  · rename_i request body r hk
    cases r with
    | none => cases h; exact .initPushed hk
    | some e => cases h; exact .initFailed hk
  · rename_i e request hk
    simp only [recordWriteError_eq, ite_none_right_eq_some, some.injEq] at h
    obtain ⟨hmu, rfl⟩ := h
    exact .record hk hmu
  · rename_i request hk
    simp only [ite_none_right_eq_some] at h
    obtain ⟨hmu, h⟩ := h
    split at h
    · rename_i he
      cases h
      exact .checkLeave hk hmu he
    · rename_i he
      cases h
      exact .checkRefuse hk hmu he
    · rename_i he
      cases h
      exact .checkPass hk hmu he
    · cases h
  · rename_i hk
    cases h
    exact .refuse hk
  · rename_i hk
    obtain ⟨hs, rfl⟩ := of_guard h
    exact .stop (.inr (.inl ⟨_, hk⟩)) hs
  · rename_i hk
    exact .exchange hk (stepExchange_cases h)
  · rename_i hk
    obtain ⟨hmu, rfl⟩ := of_guard h
    exact .finish hk hmu
  · rename_i hk
    split at h
    · cases h; exact .clear hk
    · cases h; exact .cleared hk
  · rename_i hk
    cases h
    exact .notify hk
  · rename_i hk
    obtain ⟨hs, rfl⟩ := of_guard h
    exact .stop (.inr (.inr hk)) hs
  · rename_i hk
    cases h
    exact .flush hk _
  · rename_i hk
    cases h
    exact .unlock hk
  · rename_i hk
    cases h
    exact .leave hk
  · cases h

inductive ReadStep (t : HandshakeTransport) : ReadChoice → HandshakeTransport → Prop where
  | read (hr : t.reader = .read first) :
      ReadStep t (.packet p) { t with reader := .got first p }
  | readFail (hr : t.reader = .read first) :
      ReadStep t (.fail e) { t with reader := .fail e }
  | got (hr : t.reader = .got first p) : ReadStep t .go
      { t with readPacketsLeft := n, readBytesLeft := b, requestKex := q,
               reader := t.dispatch first p }
  | offer (hr : t.reader = .offer p k) (hs : t.startKex = none) : ReadStep t .go
      { t with startKex := some p, done := none, reader := .await k }
  | offerStop (hr : t.reader = .offer p k) (hs : t.stop = true) :
      ReadStep t .stop { t with reader := .fail .eof }
  | awaitFail (hr : t.reader = .await k) (hd : t.done = some (some e)) :
      ReadStep t .go { t with done := none, reader := .fail e }
  | awaitOk (hr : t.reader = .await k) (hd : t.done = some none) : ReadStep t .go
      { t with done := none, readPacketsLeft := n, readBytesLeft := b,
               reader := afterRead ⟨if k then msgNewKeys else msgIgnore, []⟩ }
  | awaitStop (hr : t.reader = .await k) (hs : t.stop = true) :
      ReadStep t .stop { t with reader := .fail .eof }
  | deliver (hr : t.reader = .deliver p) (hl : t.incoming.length < chanSize) :
      ReadStep t .go { t with incoming := t.incoming ++ [p], reader := .read false }
  | deliverStop (hr : t.reader = .deliver p) (hs : t.stop = true) :
      ReadStep t .stop { t with reader := .returned }
  | fail (hr : t.reader = .fail e) : ReadStep t .go
      { t with readError := some e, incomingClosed := true, reader := .record }
  | record (hr : t.reader = .record) (hmu : t.mu = none)
      (hw : t.writeError ≠ none → w ≠ none) :
      ReadStep t .go { t with writeError := w, reader := .closeStart }
  | closeStart (hr : t.reader = .closeStart) : ReadStep t .go
      { t with startKexClosed := true, reader := .returned }

theorem stepRead_cases (h : t.stepRead c = some t') : ReadStep t c t' := by
  unfold stepRead at h
  split at h
  · rename_i hr
    cases h
    exact .read hr
  · rename_i hr
    cases h
    exact .readFail hr
  · rename_i first p hr
    obtain ⟨n, q, hn⟩ := t.countReadPacket_eq
    rw [hn] at h
    obtain ⟨b, q', hb⟩ := countReadBytes_eq { t with readPacketsLeft := n, requestKex := q } p
    rw [hb, some.injEq] at h
    exact h ▸ .got hr
  · rename_i hr
    obtain ⟨hs, rfl⟩ := of_guard h
    exact .offer hr hs
  · rename_i hr
    obtain ⟨hs, rfl⟩ := of_guard h
    exact .offerStop hr hs
  · rename_i hr
    split at h
    · cases h
    · rename_i hd
      cases h
      exact .awaitFail hr hd
    · rename_i hd
      cases h
      exact .awaitOk hr hd
  · rename_i hr
    obtain ⟨hs, rfl⟩ := of_guard h
    exact .awaitStop hr hs
  · rename_i hr
    obtain ⟨hl, rfl⟩ := of_guard h
    exact .deliver hr hl
  · rename_i hr
    obtain ⟨hs, rfl⟩ := of_guard h
    exact .deliverStop hr hs
  · rename_i hr
    cases h
    exact .fail hr
  · rename_i hr
    obtain ⟨hmu, rfl⟩ := of_guard h
    split
    · rw [recordWriteError_eq]
      exact .record hr hmu (by simp)
    · exact .record hr hmu id
  · rename_i hr
    cases h
    exact .closeStart hr
  · cases h

inductive DrainStep (t : HandshakeTransport) : HandshakeTransport → Prop where
  | stop (hs : t.stop = true) : DrainStep t { t with drain := .returned }
  | take (hd : t.drain = .select) (hs : t.startKex = some p) :
      DrainStep t { t with startKex := none, drain := .reply }
  | spin (hd : t.drain = .select) (hc : t.startKexClosed = true) : DrainStep t t
  | reply (hd : t.drain = .reply) :
      DrainStep t { t with done := some t.writeError, drain := .select }

theorem stepDrain_cases (h : t.stepDrain b = some t') : DrainStep t t' := by
  unfold stepDrain at h
  split at h
  · cases h
  · cases h
  · rename_i hd
    split at h
    · obtain ⟨hs, rfl⟩ := of_guard h
      exact .stop hs
    split at h
    · rename_i hs
      cases h
      exact .take hd hs
    · obtain ⟨hc, rfl⟩ := of_guard h
      exact .spin hd hc
  · rename_i hd
    split at h
    · obtain ⟨hs, rfl⟩ := of_guard h
      exact .stop hs
    · cases h
      exact .reply hd

inductive Stepped (t : HandshakeTransport) : Action → HandshakeTransport → Prop where
  | call : Stepped t (.call p) (t.callWritePacket p)
  | writer : WriterStep t i r t' → Stepped t (.writer i r) t'
  | requestKeyExchange : Stepped t .requestKeyExchange t.requestKeyExchange
  | kex : KexStep t c t' → Stepped t (.kex c) t'
  | read : ReadStep t c t' → Stepped t (.read c) t'
  | drain : DrainStep t t' → Stepped t (.drain b) t'
  | receive : t.incoming = p :: rest → Stepped t .receive { t with incoming := rest }
  | halt : Stepped t .halt { t with stop := true }

theorem step_cases (h : t.step a = some t') : Stepped t a t' := by
  cases a with
  | call | requestKeyExchange | halt =>
    cases h
    constructor
  | writer i r => exact .writer (stepWriter_cases h)
  | kex c => exact .kex (stepKex_cases h)
  | read c => exact .read (stepRead_cases h)
  | drain b => exact .drain (stepDrain_cases h)
  | receive =>
    simp only [HandshakeTransport.step] at h
    split at h
    · cases h
    · cases h
      exact .receive ‹_›

theorem step_static (h : t.step a = some t') :
    t'.config = t.config ∧ (a = .halt ∨ t'.stop = t.stop) := by
  cases step_cases h with
  | writer hs | read hs | drain hs => cases hs <;> exact ⟨rfl, .inr rfl⟩
  | kex hs =>
    cases hs with
    | exchange hk hx => cases hx <;> exact ⟨rfl, .inr rfl⟩
    | _ => exact ⟨rfl, .inr rfl⟩
  | call | requestKeyExchange | receive => exact ⟨rfl, .inr rfl⟩
  | halt => exact ⟨rfl, .inl rfl⟩

end HandshakeTransport

end XCryptoSsh
