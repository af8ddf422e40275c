import XCryptoSsh.HandshakeHears

namespace XCryptoSsh
open Go ConnectionState List Option
set_option autoImplicit true

/-- The direction has carried the packets `l`; `pending` says that a cipher waits for the next
NEWKEYS. All its ciphers meet `G`. -/
structure ConnectionState.Carries (G : KeyExchange → Prop) (s : ConnectionState KeyedCipher)
    (l : List ConnWrite) (pending : Bool) : Prop where
  seqNum : s.seqNum = .ofNat l.length
  epoch : s.packetCipher.epoch = changes l
  waiting : s.pendingKeyChange.map KeyedCipher.epoch =
    if pending then some (changes l + 1) else none
  current : ∀ k, s.packetCipher = some k → G k
  next : ∀ k, s.pendingKeyChange = some (some k) → G k

namespace ConnectionState

variable {G G' : KeyExchange → Prop} {s : ConnectionState KeyedCipher}

theorem carries_new : Carries G ⟨none, 0, none⟩ [] false where
  seqNum := rfl
  epoch := rfl
  waiting := rfl
  current _ h := by cases h
  next _ h := by cases h

theorem Carries.mono (h : s.Carries G l pending) (hG : ∀ k, G k → G' k) : s.Carries G' l pending :=
  { h with
    current := fun k hk => hG k (h.current k hk)
    next := fun k hk => hG k (h.next k hk) }

theorem ofNat_length_concat (l : List α) (a : α) :
    UInt32.ofNat (l ++ [a]).length = UInt32.ofNat l.length + 1 := by
  rw [length_append, UInt32.ofNat_add]
  rfl

theorem changes_concat_of_ne {w : ConnWrite} (hw : w.packet.tag ≠ msgNewKeys) :
    changes (l ++ [w]) = changes l := by
  simp [changes, hw]

theorem changes_concat {w : ConnWrite} (hw : w.packet.tag = msgNewKeys) :
    changes (l ++ [w]) = changes l + 1 := by
  simp [changes, hw]

theorem Carries.count (h : s.Carries G l pending) (hw : w.packet.tag ≠ msgNewKeys) :
    Carries G { s with seqNum := s.seqNum + 1 } (l ++ [w]) pending where
  seqNum := by rw [ofNat_length_concat, ← h.seqNum]
  epoch := by rw [changes_concat_of_ne hw]; exact h.epoch
  waiting := by rw [changes_concat_of_ne hw]; exact h.waiting
  current := h.current
  next := h.next

theorem Carries.change (h : s.Carries G l true) (hw : w.packet.tag = msgNewKeys) :
    ∃ c, s.pendingKeyChange = some c ∧
      Carries G ⟨c, s.seqNum + 1, none⟩ (l ++ [w]) false := by
  have hp := h.waiting
  rw [if_pos rfl] at hp
  obtain ⟨c, hc, he⟩ := map_eq_some_iff.mp hp
  refine ⟨c, hc, ?_, ?_, rfl, ?_, nofun⟩
  · rw [ofNat_length_concat, ← h.seqNum]
  · rw [changes_concat hw]
    exact he
  · rintro k rfl
    exact h.next k hc

theorem Carries.writePacket (h : s.Carries G l pending)
    (hw : w.packet.tag = msgNewKeys → pending = true) :
    ∃ s', s.writePacket w.packet.bytes = some s' ∧
      s'.Carries G (l ++ [w]) (pending && w.packet.tag != msgNewKeys) := by
  by_cases ht : w.packet.tag = msgNewKeys
  · obtain rfl := hw ht
    obtain ⟨c, hc, hs⟩ := h.change ht
    refine ⟨_, ?_, by simpa [ht] using hs⟩
    simp [ConnectionState.writePacket, Packet.bytes, ht, hc]
  · have hb : (pending && w.packet.tag != msgNewKeys) = pending := by simp [bne, ht]
    refine ⟨_, ?_, hb ▸ h.count ht⟩
    simp [ConnectionState.writePacket, Packet.bytes, ht]

theorem Carries.readPacket (h : s.Carries G l pending)
    (hw : w.packet.tag = msgNewKeys → pending = true) (hd : w.packet.tag ≠ msgDisconnect) :
    (s.readPacket (.ok w.packet.bytes)).1 = .ok w.packet.bytes ∧
      (s.readPacket (.ok w.packet.bytes)).2.Carries G (l ++ [w])
        (pending && w.packet.tag != msgNewKeys) := by
  by_cases ht : w.packet.tag = msgNewKeys
  · obtain rfl := hw ht
    obtain ⟨c, hc, hs⟩ := h.change ht
    simpa [ConnectionState.readPacket, received, Packet.bytes, ht, hc] using hs
  · have hb : (pending && w.packet.tag != msgNewKeys) = pending := by simp [bne, ht]
    simpa [ConnectionState.readPacket, received, Packet.bytes, ht, hd, hb] using h.count ht

theorem Carries.offer (h : s.Carries G l false) (hk : G k) (hn : k.number = changes l) :
    ∃ s', s.offer (some k) = some s' ∧ s'.Carries G l true := by
  have hp : s.pendingKeyChange = none := by simpa using h.waiting
  refine ⟨_, by rw [ConnectionState.offer, hp], ?_⟩
  exact { h with
    waiting := by simp [KeyedCipher.epoch, hn]
    next := fun k' hk' => by
      cases hk'
      exact hk }

end ConnectionState

def KexPc.keysOut (k : KexPc) : Bool := k = .exchange .newKeysOut

def KexPc.keysIn (k : KexPc) : Bool := k = .exchange .newKeysOut ∨ k = .exchange .newKeysIn

def KexPc.ahead (k : KexPc) : Nat := if k = .exchange .newKeysIn then 1 else 0

structure Transcript.Records (tr : Transcript) (x : ExchangePc) (sent heard : List ConnWrite) :
    Prop where
  ownInit : (inits sent).getLast? = some tr.ownInit
  otherInit : (inits heard).getLast? = some tr.otherInit
  ownMsg : x.phase ≠ .init → (messages sent).getLast? = some tr.ownMsg
  otherMsg : x.hears ≠ .init → (messages heard).getLast? = some tr.otherMsg

namespace KeyedEnd

open HandshakeTransport

structure InStep (G : KeyExchange → Prop) (e : KeyedEnd) (heard : List ConnWrite) : Prop where
  orderly : ∃ ph, Orderly true e.transport ph
  hears : ∃ ph, wirePhase true heard = some ph ∧ e.transport.Hears ph (inits heard).getLast?
  kexTags : ∀ w ∈ e.transport.sent, w.origin = .kex →
    w.packet.isKexMessage = true ∨ w.packet.tag = msgNewKeys
  sentInit : ∀ q, e.transport.sentInitMsg = some q →
    (inits e.transport.sent).getLast? = some q
  writer : e.writer.Carries G e.transport.sent e.transport.kex.keysOut
  reader : e.reader.Carries G heard e.transport.kex.keysIn
  changes : changes e.transport.sent = changes heard + e.transport.kex.ahead
  transcript : ∀ x, e.transport.kex = .exchange x →
    e.exchange.Records x e.transport.sent heard
  running : e.panicked = false

variable {G G' : KeyExchange → Prop} {e : KeyedEnd} {heard : List ConnWrite}

theorem inStep_new (c : HandshakeConfig) : (new c).InStep G [] where
  orderly := ⟨.start, orderly_new c true⟩
  hears := ⟨.start, rfl, hears_new c⟩
  kexTags _ h := by cases h
  sentInit _ h := by cases h
  writer := carries_new
  reader := carries_new
  changes := rfl
  transcript _ h := by cases h
  running := rfl

theorem InStep.mono (h : e.InStep G heard) (hG : ∀ k, G k → G' k) : e.InStep G' heard :=
  { h with
    writer := h.writer.mono hG
    reader := h.reader.mono hG }

theorem flags_of_ne {k k' : KexPc} (h : ∀ x, k ≠ .exchange x) (h' : ∀ x, k' ≠ .exchange x) :
    k'.keysOut = k.keysOut ∧ k'.keysIn = k.keysIn ∧ k'.ahead = k.ahead := by
  simp [KexPc.keysOut, KexPc.keysIn, KexPc.ahead, h, h']

theorem flags_beside {k k' : KexPc}
    (h : k' = k ∧ P ∨ (∀ x, k ≠ .exchange x) ∧ ∀ x, k' ≠ .exchange x) :
    k'.keysOut = k.keysOut ∧ k'.keysIn = k.keysIn ∧ k'.ahead = k.ahead := by
  obtain ⟨rfl, -⟩ | ⟨hx, hx'⟩ := h
  · exact ⟨rfl, rfl, rfl⟩
  · exact flags_of_ne hx hx'

section

variable (h : e.InStep G heard) (ho : ∃ ph, Orderly true t' ph) (hh : ∀ ph init, e.transport.Hears
  ph init → t'.Hears ph init)

include h ho hh

theorem InStep.stay (hs : t'.sent = e.transport.sent)
    (hi : ∀ q, t'.sentInitMsg = some q → e.transport.sentInitMsg = some q)
    (hout : t'.kex.keysOut = e.transport.kex.keysOut)
    (hin : t'.kex.keysIn = e.transport.kex.keysIn) (ha : t'.kex.ahead = e.transport.kex.ahead)
    (htr : ∀ x, t'.kex = .exchange x → tr.Records x e.transport.sent heard) :
    ({ e with transport := t', exchange := tr } : KeyedEnd).InStep G heard where
  orderly := ho
  hears := h.hears.imp fun ph hp => hp.imp_right (hh ph _)
  kexTags := by rw [hs]; exact h.kexTags
  sentInit := by
    rw [hs]
    exact fun q hq => h.sentInit q (hi q hq)
  writer := by rw [hs, hout]; exact h.writer
  reader := by rw [hin]; exact h.reader
  changes := by rw [hs, ha]; exact h.changes
  transcript := by rw [hs]; exact htr
  running := h.running

theorem InStep.wrote (hs : t'.sent = e.transport.sent ++ [w])
    (ht : w.origin = .kex → w.packet.isKexMessage = true ∨ w.packet.tag = msgNewKeys)
    (hi : ∀ q, t'.sentInitMsg = some q → (inits (e.transport.sent ++ [w])).getLast? = some q)
    (hk : w.packet.tag = msgNewKeys → e.transport.kex.keysOut = true)
    (hout : t'.kex.keysOut = (e.transport.kex.keysOut && w.packet.tag != msgNewKeys))
    (hin : t'.kex.keysIn = e.transport.kex.keysIn)
    (ha : XCryptoSsh.changes (e.transport.sent ++ [w]) = XCryptoSsh.changes heard + t'.kex.ahead)
    (htr : ∀ x, t'.kex = .exchange x → tr.Records x (e.transport.sent ++ [w]) heard) :
    ∃ e', ({ e with transport := t', exchange := tr } : KeyedEnd).write w =
        (e', [⟨w.origin, w.packet, e.writer.packetCipher, e.writer.seqNum⟩]) ∧
      e'.transport = t' ∧ e'.InStep G heard := by
  obtain ⟨s', hs', hc⟩ := h.writer.writePacket hk
  refine ⟨{ e with transport := t', exchange := tr, writer := s' }, by simp [write, hs'], rfl, ?_⟩
  exact {
    orderly := ho
    hears := h.hears.imp fun ph hp => hp.imp_right (hh ph _)
    kexTags := by
      intro w' hw'
      rw [hs] at hw'
      obtain hw' | hw' := mem_append.mp hw'
      · exact h.kexTags w' hw'
      · rw [mem_singleton.mp hw']
        exact ht
    sentInit := by rw [hs]; exact hi
    writer := by rw [hs, hout]; exact hc
    reader := by rw [hin]; exact h.reader
    changes := by rw [hs]; exact ha
    transcript := by rw [hs]; exact htr
    running := h.running }

end

theorem observe_of_ne {t : HandshakeTransport} {a : Action} (h : ∀ c, a ≠ .kex c) :
    observe t tr a = tr := by
  cases a with
  | kex c => exact absurd rfl (h c)
  | _ => rfl

theorem run_cases (h : e.run a = some r) :
    ∃ t e₁, e.transport.step a = some t ∧ e.preparing a = some e₁ ∧
      r = flush { e₁ with transport := t, exchange := observe e.transport e.exchange a }
        (t.sent.drop e.transport.sent.length) := by
  obtain ⟨t, ht, h⟩ := bind_eq_some_iff.mp h
  obtain ⟨e₁, he, h⟩ := bind_eq_some_iff.mp h
  exact ⟨t, e₁, ht, he, (some.inj h).symm⟩

theorem preparing_of_ne (h : e.transport.kex = .exchange .prepare → a ≠ .kex .go) :
    e.preparing a = some e := by
  have hp : prepares e.transport a = false := by
    simp only [prepares, decide_eq_false_iff_not]
    rintro ⟨hk, ha⟩
    exact h hk ha
  rw [preparing, hp]
  rfl

def Sends (e : KeyedEnd) (out : List Frame) (sent : List ConnWrite) : Prop :=
  out = [] ∧ sent = e.transport.sent ∨
    ∃ w, out = [⟨w.origin, w.packet, e.writer.packetCipher, e.writer.seqNum⟩] ∧
      w.result = none ∧ sent = e.transport.sent ++ [w]

theorem records_app {tr : Transcript} {l : List ConnWrite} (h : tr.Records x l heard)
    (hp : Packet.plain p) : tr.Records x (l ++ [⟨.app, p, none⟩]) heard := by
  have hi : inits (l ++ [⟨.app, p, none⟩]) = inits l := by simp [inits, hp.1]
  have hm : messages (l ++ [⟨.app, p, none⟩]) = messages l := by simp [messages]
  exact ⟨hi ▸ h.ownInit, h.otherInit, hm ▸ h.ownMsg, h.otherMsg⟩

section Run

variable {t : HandshakeTransport} {a : Action} {e₁ e' : KeyedEnd} {out : List Frame}

theorem flush_nil (hs : t.sent = e.transport.sent) :
    flush e₁ (t.sent.drop e.transport.sent.length) = (e₁, []) := by
  rw [hs, drop_length]
  rfl

theorem flush_one (hs : t.sent = e.transport.sent ++ [w]) :
    flush e₁ (t.sent.drop e.transport.sent.length) = e₁.write w := by
  rw [hs, drop_left]
  rfl

section Within

variable (h : e.InStep G heard) (ho : ∃ ph, Orderly true t ph)
  (hh : ∀ ph init, e.transport.Hears ph init → t.Hears ph init)

include h ho hh

theorem InStep.beside
    (hk : t.kex = e.transport.kex ∧ (∀ c, a ≠ .kex c) ∨
      (∀ x, e.transport.kex ≠ .exchange x) ∧ ∀ x, t.kex ≠ .exchange x)
    (hi : ∀ q, t.sentInitMsg = some q → e.transport.sentInitMsg = some q)
    (hs : t.sent = e.transport.sent) :
    ({ e with transport := t, exchange := observe e.transport e.exchange a } : KeyedEnd).InStep G
      heard := by
  obtain ⟨hout, hin, hahead⟩ := flags_beside hk
  refine h.stay ho hh hs hi hout hin hahead ?_
  obtain ⟨hk, ha⟩ | ⟨hx, hx'⟩ := hk
  · rw [hk, observe_of_ne ha]
    exact h.transcript
  · exact fun x hc => absurd hc (hx' x)

theorem InStep.app (hp : p.plain)
    (hk : t.kex = e.transport.kex ∧ (∀ c, a ≠ .kex c) ∨
      (∀ x, e.transport.kex ≠ .exchange x) ∧ ∀ x, t.kex ≠ .exchange x)
    (hi : t.sentInitMsg = e.transport.sentInitMsg)
    (hs : t.sent = e.transport.sent ++ [⟨.app, p, none⟩]) :
    ∃ e', write { e with transport := t, exchange := observe e.transport e.exchange a }
        ⟨.app, p, none⟩ = (e', [⟨.app, p, e.writer.packetCipher, e.writer.seqNum⟩]) ∧
      e'.transport = t ∧ e'.InStep G heard := by
  have hinit : inits (e.transport.sent ++ [⟨.app, p, none⟩]) = inits e.transport.sent := by
    simp [inits, hp.1]
  have hb : (e.transport.kex.keysOut && p.tag != msgNewKeys) = e.transport.kex.keysOut := by
    simp [bne, hp.2]
  obtain ⟨hout, hin, hahead⟩ := flags_beside hk
  have hchanges := h.changes
  rw [← changes_concat_of_ne (w := ⟨.app, p, none⟩) hp.2, ← hahead] at hchanges
  refine h.wrote ho hh hs (by simp) ?_ (fun hc => absurd hc hp.2) (hout.trans hb.symm) hin hchanges
    ?_
  · rw [hinit, hi]
    exact h.sentInit
  · obtain ⟨hk, ha⟩ | ⟨hx, hx'⟩ := hk
    · rw [hk, observe_of_ne ha]
      exact fun x hx => records_app (h.transcript x hx) hp
    · exact fun x hc => absurd hc (hx' x)

theorem InStep.kexInit (hx : ∀ x, e.transport.kex ≠ .exchange x) (hx' : ∀ x, t.kex ≠ .exchange x)
    (hi : t.sentInitMsg = some ⟨msgKexInit, body⟩)
    (hs : t.sent = e.transport.sent ++ [⟨.kexInit, ⟨msgKexInit, body⟩, none⟩]) :
    ∃ e', write { e with transport := t, exchange := observe e.transport e.exchange a }
        ⟨.kexInit, ⟨msgKexInit, body⟩, none⟩ =
          (e', [⟨.kexInit, ⟨msgKexInit, body⟩, e.writer.packetCipher, e.writer.seqNum⟩]) ∧
      e'.transport = t ∧ e'.InStep G heard := by
  have hn : (⟨msgKexInit, body⟩ : Packet).tag ≠ msgNewKeys := (by decide : msgKexInit ≠ msgNewKeys)
  obtain ⟨hout, hin, hahead⟩ := flags_of_ne hx hx'
  have hchanges := h.changes
  rw [← changes_concat_of_ne (w := ⟨.kexInit, ⟨msgKexInit, body⟩, none⟩) hn, ← hahead] at hchanges
  refine h.wrote ho hh hs nofun ?_ (fun hc => absurd hc hn) (hout.trans (Bool.and_true _).symm) hin
    hchanges (fun x hc => absurd hc (hx' x))
  intro q hq
  cases hi.symm.trans hq
  simp [inits]

variable (hi : t.sentInitMsg = e.transport.sentInitMsg)

include hi

theorem InStep.entered (hk : e.transport.kex = .check (some p)) (hk' : t.kex = .exchange .parse)
    (hs : t.sent = e.transport.sent) :
    ({ e with transport := t, exchange := observe e.transport e.exchange (.kex .go) } :
      KeyedEnd).InStep G heard := by
  obtain ⟨ph, ho₀⟩ := h.orderly
  obtain ⟨own, hown⟩ := ne_none_iff_exists'.mp (ho₀.busy (by rw [hk]; rfl))
  obtain ⟨ph', -, hhears⟩ := h.hears
  refine h.stay ho hh hs (fun q hq => hi ▸ hq) (by rw [hk, hk']; rfl) (by rw [hk, hk']; rfl)
    (by rw [hk, hk']; rfl) ?_
  intro x hx
  cases hk'.symm.trans hx
  refine ⟨?_, ?_, fun hc => absurd rfl hc, fun hc => absurd rfl hc⟩
  · rw [h.sentInit own hown]
    simp [observe, hk, hown]
  · rw [hhears.request p (by rw [hk]; rfl)]
    simp [observe, hk, hown]

theorem InStep.proceed (hk : e.transport.kex = .exchange x) (hk' : t.kex = .exchange y)
    (hs : t.sent = e.transport.sent)
    (hout : (KexPc.exchange y).keysOut = (KexPc.exchange x).keysOut)
    (hin : (KexPc.exchange y).keysIn = (KexPc.exchange x).keysIn)
    (ha : (KexPc.exchange y).ahead = (KexPc.exchange x).ahead) (hp : y.phase = x.phase)
    (hp' : y.hears = x.hears) :
    ({ e with transport := t, exchange := e.exchange } : KeyedEnd).InStep G heard := by
  refine h.stay ho hh hs (fun q hq => hi ▸ hq) (by rw [hk, hk', hout]) (by rw [hk, hk', hin])
    (by rw [hk, hk', ha]) ?_
  intro z hz
  cases hk'.symm.trans hz
  have hr := h.transcript x hk
  exact ⟨hr.ownInit, hr.otherInit, hp ▸ hr.ownMsg, hp' ▸ hr.otherMsg⟩

theorem InStep.kexWrote (hk : e.transport.kex = .exchange (.kex (.write :: todo)))
    (hk' : t.kex = .exchange (.kex todo)) (hm : p.isKexMessage = true)
    (hs : t.sent = e.transport.sent ++ [⟨.kex, p, none⟩]) :
    ∃ e', write { e with
          transport := t
          exchange := observe e.transport e.exchange (.kex (.wrote p none)) }
        ⟨.kex, p, none⟩ = (e', [⟨.kex, p, e.writer.packetCipher, e.writer.seqNum⟩]) ∧
      e'.transport = t ∧ e'.InStep G heard := by
  have hp := Packet.plain_of_isKexMessage hm
  have hinit : inits (e.transport.sent ++ [⟨.kex, p, none⟩]) = inits e.transport.sent := by
    simp [inits, hp.1]
  have hchanges := h.changes
  rw [← changes_concat_of_ne (w := ⟨.kex, p, none⟩) hp.2, hk] at hchanges
  refine h.wrote ho hh hs (fun _ => .inl hm) ?_ (fun hc => absurd hc hp.2) (by rw [hk, hk']; rfl)
    (by rw [hk, hk']; rfl) (by rw [hk', hchanges]; rfl) ?_
  · rw [hinit, hi]
    exact h.sentInit
  intro x hx
  cases hk'.symm.trans hx
  have hr := h.transcript _ hk
  simp only [observe, hk]
  refine ⟨hinit ▸ hr.ownInit, hr.otherInit, ?_, ?_⟩
  · intro _
    simp [messages, hp.1, hp.2]
  intro hne
  refine hr.otherMsg ?_
  simpa [ExchangePc.hears] using hne

theorem InStep.newKeysOut (hk : e.transport.kex = .exchange .newKeysOut)
    (hk' : t.kex = .exchange .newKeysIn)
    (hs : t.sent = e.transport.sent ++ [⟨.kex, ⟨msgNewKeys, []⟩, none⟩]) :
    ∃ e', write { e with
          transport := t
          exchange := observe e.transport e.exchange (.kex (.wrote p none)) }
        ⟨.kex, ⟨msgNewKeys, []⟩, none⟩ =
          (e', [⟨.kex, ⟨msgNewKeys, []⟩, e.writer.packetCipher, e.writer.seqNum⟩]) ∧
      e'.transport = t ∧ e'.InStep G heard := by
  have hinit : inits (e.transport.sent ++ [⟨.kex, ⟨msgNewKeys, []⟩, none⟩]) =
      inits e.transport.sent := by
    simp [inits, msgNewKeys, msgKexInit]
  have hmsgs : messages (e.transport.sent ++ [⟨.kex, ⟨msgNewKeys, []⟩, none⟩]) =
      messages e.transport.sent := by
    simp [messages]
  have hchanges := h.changes
  rw [hk] at hchanges
  refine h.wrote ho hh hs (fun _ => .inr rfl) ?_ (fun _ => by rw [hk]; rfl) (by rw [hk, hk']; rfl)
    (by rw [hk, hk']; rfl) ?_ ?_
  · rw [hinit, hi]
    exact h.sentInit
  · rw [changes_concat rfl, hchanges, hk']
    rfl
  intro x hx
  cases hk'.symm.trans hx
  have hr := h.transcript _ hk
  simp only [observe, hk]
  exact ⟨hinit ▸ hr.ownInit, hr.otherInit, fun _ => hmsgs ▸ hr.ownMsg (by decide), hr.otherMsg⟩

theorem InStep.prepared (hk : e.transport.kex = .exchange .prepare)
    (hk' : t.kex = .exchange .newKeysOut) (hs : t.sent = e.transport.sent) (hG : G e.newKey)
      (he : e.prepareKeyChange = some e₁) :
    ({ e₁ with transport := t, exchange := e.exchange } : KeyedEnd).InStep G heard := by
  have hw := h.writer
  have hr := h.reader
  have hchanges := h.changes
  rw [hk] at hw hr hchanges
  have hn : e.newKey.number = XCryptoSsh.changes e.transport.sent := by
    rw [← hw.epoch, newKey, Transcript.keyExchange]
    split <;> rfl
  obtain ⟨r', hr', hrc⟩ := hr.offer hG (hn.trans hchanges)
  obtain ⟨w', hw', hwc⟩ := hw.offer hG hn
  rw [prepareKeyChange, hr'] at he
  simp only [bind_eq_bind, bind_some, hw'] at he
  cases he
  exact {
    orderly := ho
    hears := h.hears.imp fun ph hp => hp.imp_right (hh ph _)
    kexTags := by rw [hs]; exact h.kexTags
    sentInit := by rw [hs, hi]; exact h.sentInit
    writer := by rw [hs, hk']; exact hwc
    reader := by rw [hk']; exact hrc
    changes := by rw [hs, hk']; exact hchanges
    transcript := by
      intro x hx
      cases hk'.symm.trans hx
      have hr := h.transcript _ hk
      rw [hs]
      exact ⟨hr.ownInit, hr.otherInit, hr.ownMsg, hr.otherMsg⟩
    running := h.running }

end Within

theorem InStep.run (h : e.InStep G heard) (hg : e.transport.Smooth a) (hn : a.guessed = false)
    (hp : a.takes = false) (hG : e.transport.kex = .exchange .prepare → G e.newKey)
    (hs : e.run a = some (e', out)) : e'.InStep G heard ∧ e.Sends out e'.transport.sent := by
  obtain ⟨t, e₁, ht, he, hr⟩ := run_cases hs
  obtain ⟨ph, ho⟩ := h.orderly
  have ho' := ho.step hg nofun ht
  have hh (ph init) (hears : e.transport.Hears ph init) : t.Hears ph init :=
    hears.step ho hg hn hp ht
  have quiet (hsent : t.sent = e.transport.sent)
      (hin : ({ e₁ with
        transport := t
        exchange := observe e.transport e.exchange a } : KeyedEnd).InStep G heard) :
      e'.InStep G heard ∧ e.Sends out e'.transport.sent := by
    rw [flush_nil hsent] at hr
    cases hr
    exact ⟨hin, .inl ⟨rfl, hsent⟩⟩
  have one {w : ConnWrite} (hw : w.result = none) (hsent : t.sent = e.transport.sent ++ [w])
      (hp : e.preparing a = some e)
      (hwrote : ∃ e', write { e with
          transport := t
          exchange := observe e.transport e.exchange a } w =
          (e', [⟨w.origin, w.packet, e.writer.packetCipher, e.writer.seqNum⟩]) ∧
        e'.transport = t ∧ e'.InStep G heard) :
      e'.InStep G heard ∧ e.Sends out e'.transport.sent := by
    cases hp.symm.trans he
    rw [flush_one hsent] at hr
    obtain ⟨e'', hwrite, ht', hin⟩ := hwrote
    rw [hwrite] at hr
    cases hr
    exact ⟨hin, .inr ⟨w, rfl, hw, ht' ▸ hsent⟩⟩
  have outside (hk : t.kex = e.transport.kex ∧ (∀ c, a ≠ .kex c) ∨
      (∀ x, e.transport.kex ≠ .exchange x) ∧ ∀ x, t.kex ≠ .exchange x) :
      e.preparing a = some e := by
    refine preparing_of_ne fun hprep => ?_
    obtain ⟨-, ha⟩ | ⟨hx, -⟩ := hk
    · exact ha .go
    · exact absurd hprep (hx _)
  cases progress_of_step ho hg ht with
  | beside hk hi hsent =>
    cases (outside hk).symm.trans he
    exact quiet hsent (h.beside ho' hh hk hi hsent)
  | app hplain hk hi hsent => exact one rfl hsent (outside hk) (h.app ho' hh hplain hk hi hsent)
  | kexInit hk hi hsent =>
    exact one rfl hsent (outside (.inr hk)) (h.kexInit ho' hh hk.1 hk.2 hi hsent)
  | entered ha hk hk' hi hsent =>
    subst ha
    have hprep : e.preparing (.kex .go) = some e := preparing_of_ne fun hc => by
      cases hk.symm.trans hc
    cases hprep.symm.trans he
    exact quiet hsent (h.entered ho' hh hi hk hk' hsent)
  | @exchanges c x ha hk hx =>
    subst ha
    have other (hc : x = .prepare → c ≠ .go) : e.preparing (.kex c) = some e := by
      refine preparing_of_ne fun hprep hgo => ?_
      cases hk.symm.trans hprep
      cases hgo
      exact hc rfl rfl
    cases hx with
    | @parsed al guess =>
      cases (other nofun).symm.trans he
      cases guess with
      | true => cases hn
      | false =>
        exact quiet rfl (h.proceed ho' hh rfl hk rfl rfl rfl rfl rfl (phase_kexTraffic _)
          (hears_kexTraffic _))
    | kexWrote hm =>
      exact one rfl rfl (other nofun) (h.kexWrote ho' hh rfl hk rfl hm rfl)
    | result =>
      cases (other nofun).symm.trans he
      exact quiet rfl (h.proceed ho' hh rfl hk rfl rfl rfl rfl rfl rfl rfl)
    | prepared =>
      have hprep : e.prepareKeyChange = some e₁ := by
        simpa [preparing, prepares, hk] using he
      have hobs : observe e.transport e.exchange (.kex .go) = e.exchange := by
        simp [observe, hk]
      refine quiet rfl ?_
      rw [hobs]
      exact h.prepared ho' hh rfl hk rfl rfl (hG hk) hprep
    | newKeysOut =>
      exact one rfl rfl (other nofun) (h.newKeysOut ho' hh rfl hk rfl rfl)
    | skipped | kexRead | newKeysIn => cases hp

end Run

section Receive

variable {t : HandshakeTransport} {w : ConnWrite} {r : ConnectionState KeyedCipher} {ph : Phase}

section Next

variable (h : e.InStep G heard) (hw : wirePhase true (heard ++ [w]) = some ph)

include h hw

theorem InStep.hear (ho : ∃ ph, Orderly true t ph)
    (hh : t.Hears ph (inits (heard ++ [w])).getLast?) (hs : t.sent = e.transport.sent)
    (hi : t.sentInitMsg = e.transport.sentInitMsg)
    (hout : t.kex.keysOut = e.transport.kex.keysOut)
    (hr : r.Carries G (heard ++ [w]) t.kex.keysIn)
    (ha : XCryptoSsh.changes e.transport.sent = XCryptoSsh.changes (heard ++ [w]) + t.kex.ahead)
    (htr : ∀ x, t.kex = .exchange x → tr.Records x e.transport.sent (heard ++ [w])) :
    ({ e with transport := t, reader := r, exchange := tr } : KeyedEnd).InStep G
      (heard ++ [w]) where
  orderly := ho
  hears := ⟨ph, hw, hh⟩
  kexTags := by rw [hs]; exact h.kexTags
  sentInit := by rw [hs, hi]; exact h.sentInit
  writer := by rw [hs, hout]; exact h.writer
  reader := hr
  changes := by rw [hs]; exact ha
  transcript := by rw [hs]; exact htr
  running := h.running

theorem InStep.readLoop_next (hr : e.transport.reader = .read first) :
    e.transport.kex.waiting = none ∧ e.transport.startKex = none ∧
      (w.packet.tag = msgKexInit ∧ ph = .init ∨
        w.packet.plain ∧ w.origin = .app ∧ wirePhase true heard = some ph ∧
          (ph = .start ∨ ph = .keyed)) := by
  obtain ⟨ph₀, hw₀, hh⟩ := h.hears
  have hwait := hh.waiting_of_reader (by rw [hr]; exact nofun)
  have hl := hh.listening hwait
  simp only [Listening, hr] at hl
  obtain ⟨ph₁, hw₁, hn⟩ := wirePhase_concat hw
  cases hw₀.symm.trans hw₁
  refine ⟨hwait, hl.1, ?_⟩
  cases hn with
  | kexInit ht hp => exact .inl ⟨ht, rfl⟩
  | newKeys ht hp | kex hplain ho hp =>
    subst hp
    exact absurd hl.2 (by decide)
  | app hplain ho hp => exact .inr ⟨hplain, ho, hw₁, hp⟩

theorem InStep.kexLoop_next (hk : e.transport.kex = .exchange x) :
    x.hears = .init ∧ w.packet.plain ∧ w.origin = .kex ∧ ph = .message ∨
      x.hears = .message ∧ w.packet.tag = msgNewKeys ∧ ph = .keyed := by
  obtain ⟨ph₀, hw₀, hh⟩ := h.hears
  obtain ⟨-, rfl⟩ := hh.blocked x.hears (by rw [hk]; rfl)
  obtain ⟨ph₁, hw₁, hn⟩ := wirePhase_concat hw
  cases hw₀.symm.trans hw₁
  have hx : x.hears = .init ∨ x.hears = .message := by
    cases x with
    | kex todo =>
      simp only [ExchangePc.hears]
      split
      · exact .inl rfl
      · exact .inr rfl
    | parse | skipGuess => exact .inl rfl
    | prepare | newKeysOut | newKeysIn => exact .inr rfl
  cases hn with
  | kexInit ht hp | app hplain ho hp =>
    rcases hx with hx | hx <;> rw [hx] at hp <;> exact absurd hp (by decide)
  | newKeys ht hp => exact .inr ⟨hp, ht, rfl⟩
  | kex hplain ho hp => exact .inl ⟨hp, hplain, ho, rfl⟩

theorem InStep.keysIn_of_reads (hr : reads e.transport kexLoop = true)
    (ht : w.packet.tag = msgNewKeys) :
    e.transport.kex.keysIn = true := by
  cases kexLoop with
  | false =>
    simp only [reads, Bool.false_eq_true, if_false, readLoopReads] at hr
    split at hr
    · rename_i first hread
      obtain ⟨-, -, ⟨hc, -⟩ | ⟨hc, -⟩⟩ := h.readLoop_next hw hread
      · cases ht.symm.trans hc
      · exact absurd ht hc.2
    · cases hr
  | true =>
    obtain ⟨ph₀, -, hh⟩ := h.hears
    simp only [reads, if_true, kexLoopReads] at hr
    split at hr
    · rename_i hk
      exact absurd hk hh.noGuess
    · rename_i todo hk
      obtain ⟨-, hc, -⟩ | ⟨hc, -⟩ := h.kexLoop_next hw hk
      · exact absurd ht hc.2
      · simp [ExchangePc.hears] at hc
    · rename_i hk
      simp [KexPc.keysIn, hk]
    · cases hr

variable
  (hr : r.Carries G (heard ++ [w]) (e.transport.kex.keysIn && w.packet.tag != msgNewKeys))

include hr

theorem InStep.drop (hread : e.transport.reader = .read first) (hne : w.packet.tag ≠ msgKexInit) :
    ({ e with reader := r } : KeyedEnd).InStep G (heard ++ [w]) := by
  obtain ⟨hwait, -, ⟨hc, -⟩ | ⟨hplain, horigin, hw₀, -⟩⟩ := h.readLoop_next hw hread
  · exact absurd hc hne
  have hx (x : ExchangePc) : e.transport.kex ≠ .exchange x := by
    intro hc
    rw [hc] at hwait
    cases hwait
  obtain ⟨ph₀, hw₁, hh⟩ := h.hears
  cases hw₀.symm.trans hw₁
  have hinit : inits (heard ++ [w]) = inits heard := by simp [inits, hne]
  have hb : (e.transport.kex.keysIn && w.packet.tag != msgNewKeys) = e.transport.kex.keysIn := by
    simp [bne, hplain.2]
  refine h.hear (t := e.transport) hw h.orderly (hinit ▸ hh) rfl rfl rfl (hb ▸ hr) ?_
    fun x hc => absurd hc (hx x)
  rw [changes_concat_of_ne hplain.2]
  exact h.changes

theorem InStep.got (hread : e.transport.reader = .read first)
    (ht : e.transport.step (.read (.packet w.packet)) = some t) :
    ({ e with transport := t, reader := r } : KeyedEnd).InStep G (heard ++ [w]) ∧
      t.sent = e.transport.sent := by
  obtain ⟨ph₀, ho⟩ := h.orderly
  have ho' := ho.step (a := .read (.packet w.packet)) trivial nofun ht
  obtain rfl : { e.transport with reader := .got first w.packet } = t := by
    simpa [HandshakeTransport.step, stepRead, hread] using ht
  obtain ⟨hwait, hstart, hnext⟩ := h.readLoop_next hw hread
  have hx (x : ExchangePc) : e.transport.kex ≠ .exchange x := by
    intro hc
    rw [hc] at hwait
    cases hwait
  have hn : w.packet.tag ≠ msgNewKeys := by
    obtain ⟨hc, -⟩ | ⟨hc, -⟩ := hnext
    · rw [hc]
      decide
    · exact hc.2
  have hb : (e.transport.kex.keysIn && w.packet.tag != msgNewKeys) = e.transport.kex.keysIn := by
    simp [bne, hn]
  obtain ⟨ph₁, hw₁, hh⟩ := h.hears
  refine ⟨h.hear hw ho' ?_ rfl rfl rfl (hb ▸ hr) ?_ fun x hc => absurd hc (hx x), rfl⟩
  · obtain ⟨hc, rfl⟩ | ⟨hplain, -, hw₀, hph⟩ := hnext
    · have hlast : (inits (heard ++ [w])).getLast? = some w.packet := by simp [inits, hc]
      refine ⟨?_, hh.noGuess, ?_, ?_⟩
      · intro p hp
        cases (KexPc.request_of_waiting hwait).symm.trans hp
      · intro ph' hc'
        cases hwait.symm.trans hc'
      · intro _
        simpa [Listening, hc, hlast] using hstart
    · cases hw₀.symm.trans hw₁
      have hinit : inits (heard ++ [w]) = inits heard := by simp [inits, hplain.1]
      rw [hinit]
      refine hh.of_listening hwait rfl ?_
      simpa [Listening, hplain.1] using ⟨hstart, hph⟩
  · rw [changes_concat_of_ne hn]
    exact h.changes

variable (ht : e.transport.step (.kex (.packet w.packet)) = some t)

include ht

theorem InStep.kexRead (hk : e.transport.kex = .exchange (.kex (.read :: todo))) :
    ({ e with
        transport := t
        reader := r
        exchange := observe e.transport e.exchange (.kex (.packet w.packet)) } :
      KeyedEnd).InStep G (heard ++ [w]) ∧ t.sent = e.transport.sent := by
  obtain ⟨ph₀, ho⟩ := h.orderly
  have ho' := ho.step (a := .kex (.packet w.packet))
    (fun hc => by rw [hk] at hc; cases hc) (by simp) ht
  obtain rfl : { e.transport with kex := .exchange (.kex todo) } = t := by
    simpa [HandshakeTransport.step, stepKex, stepExchange, hk] using ht
  have hread := (nodup_cons.mp (ho.traffic _ hk)).1
  obtain ⟨-, hplain, horigin, rfl⟩ | ⟨hc, -⟩ := h.kexLoop_next hw hk
  swap
  · simp [ExchangePc.hears] at hc
  obtain ⟨ph₁, -, hh⟩ := h.hears
  have hblocked := (hh.blocked .init (by rw [hk]; simp [KexPc.waiting, ExchangePc.hears])).1
  have hinit : inits (heard ++ [w]) = inits heard := by simp [inits, hplain.1]
  have hb : (e.transport.kex.keysIn && w.packet.tag != msgNewKeys) = false := by
    rw [hk]
    rfl
  have hchanges := h.changes
  rw [hk, ← changes_concat_of_ne (l := heard) hplain.2] at hchanges
  rw [hb] at hr
  refine ⟨h.hear hw ho' ?_ rfl rfl (by rw [hk]; rfl) hr hchanges ?_, rfl⟩
  · refine ⟨fun p hp => (by cases hp), by simp, ?_, by rintro ⟨⟩⟩
    intro ph' hph
    refine ⟨hblocked, ?_⟩
    simpa [KexPc.waiting, ExchangePc.hears, hread] using hph
  · rintro x ⟨⟩
    have hrec := h.transcript _ hk
    simp only [observe, hk]
    refine ⟨hrec.ownInit, hinit ▸ hrec.otherInit, ?_, ?_⟩
    · intro hne
      refine hrec.ownMsg ?_
      simpa [ExchangePc.phase] using hne
    · intro _
      simp [messages, hplain.1, hplain.2, horigin]

theorem InStep.newKeysIn (hk : e.transport.kex = .exchange .newKeysIn) :
    ({ e with
        transport := t
        reader := r
        exchange := observe e.transport e.exchange (.kex (.packet w.packet)) } :
      KeyedEnd).InStep G (heard ++ [w]) ∧ t.sent = e.transport.sent := by
  obtain ⟨hc, -⟩ | ⟨-, htag, rfl⟩ := h.kexLoop_next hw hk
  · cases hc
  obtain ⟨ph₀, ho⟩ := h.orderly
  have ho' := ho.step (a := .kex (.packet w.packet)) (fun _ => htag) (by simp) ht
  obtain rfl : { e.transport with kex := .lockFinish none } = t := by
    simpa [HandshakeTransport.step, stepKex, stepExchange, hk, htag] using ht
  obtain ⟨ph₁, -, hh⟩ := h.hears
  have hblocked := (hh.blocked .message (by rw [hk]; rfl)).1
  have hb : (e.transport.kex.keysIn && w.packet.tag != msgNewKeys) = false := by simp [htag]
  have hchanges := h.changes
  rw [hk] at hchanges
  rw [hb] at hr
  refine ⟨h.hear hw ho' ?_ rfl rfl (by rw [hk]; rfl) hr ?_ fun x hc => (by cases hc), rfl⟩
  · refine ⟨fun p hp => (by cases hp), by simp, ?_, by rintro ⟨⟩⟩
    intro ph' hph
    cases hph
    exact ⟨hblocked, rfl⟩
  · rw [changes_concat htag, hchanges]
    rfl

end Next

theorem InStep.receive (h : e.InStep G heard) (hw :
    wirePhase true (heard ++ [f.connWrite]) = some ph)
    (ht : f.origin = .kex → f.packet.isKexMessage = true ∨ f.packet.tag = msgNewKeys)
    (hc : f.cipher = e.reader.packetCipher) (hn : f.seqNum = e.reader.seqNum)
    (hd : f.packet.tag ≠ msgDisconnect) (hs : e.receive kexLoop f = some e') :
    e'.InStep G (heard ++ [f.connWrite]) ∧ e'.transport.sent = e.transport.sent := by
  unfold KeyedEnd.receive at hs
  split at hs
  swap
  · cases hs
  rename_i hreads
  have hdec : f.decrypt e.reader = .ok f.packet.bytes := if_pos ⟨hc, hn⟩
  obtain ⟨hok, hr⟩ := h.reader.readPacket (w := f.connWrite)
    (fun htag => h.keysIn_of_reads hw hreads htag) hd
  change (e.reader.readPacket (.ok f.packet.bytes)).1 = .ok f.packet.bytes at hok
  change (e.reader.readPacket (.ok f.packet.bytes)).2.Carries _ _ _ at hr
  simp only [hdec, hok] at hs
  cases kexLoop with
  | false =>
    simp only [reads, Bool.false_eq_true, if_false, readLoopReads] at hreads
    split at hreads
    · rename_i first hread
      split at hs
      · rename_i hig
        cases hs
        refine ⟨h.drop hw hr hread ?_, rfl⟩
        intro hkex
        have hkex' : f.packet.tag = msgKexInit := hkex
        rw [hkex'] at hig
        exact absurd hig.2 (by decide)
      · obtain ⟨t, hstep, rfl⟩ := map_eq_some_iff.mp hs
        exact h.got hw hr hread hstep
    · cases hreads
  | true =>
    obtain ⟨ph₀, -, hh⟩ := h.hears
    -- neither the messages of a key-exchange method nor NEWKEYS are dropped
    have hnot (x : ExchangePc) (hk : e.transport.kex = .exchange x) :
        ¬ (f.packet.tag = msgIgnore ∨ f.packet.tag = msgDebug) := by
      have htag : f.packet.isKexMessage = true ∨ f.packet.tag = msgNewKeys := by
        obtain ⟨-, -, horigin, -⟩ | ⟨-, htag, -⟩ := h.kexLoop_next hw hk
        · exact ht horigin
        · exact .inr htag
      obtain hm | htag := htag
      · obtain hm | hm := of_decide_eq_true hm <;> rw [hm] <;> decide
      · rw [htag]
        decide
    simp only [reads, if_true, kexLoopReads] at hreads
    split at hreads
    · rename_i hk
      exact absurd hk hh.noGuess
    · rename_i todo hk
      rw [if_neg (fun hc => hnot _ hk hc.2)] at hs
      obtain ⟨t, hstep, rfl⟩ := map_eq_some_iff.mp hs
      exact h.kexRead hw hr hstep hk
    · rename_i hk
      rw [if_neg (fun hc => hnot _ hk hc.2)] at hs
      obtain ⟨t, hstep, rfl⟩ := map_eq_some_iff.mp hs
      exact h.newKeysIn hw hr hstep hk
    · cases hreads

end Receive

end KeyedEnd

end XCryptoSsh
