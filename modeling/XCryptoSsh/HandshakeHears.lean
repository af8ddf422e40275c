import XCryptoSsh.KeyedPair

namespace XCryptoSsh
open Go Machine List Option
set_option autoImplicit true

def inits (l : List ConnWrite) : List Packet :=
  (l.filter fun w => w.packet.tag == msgKexInit).map ConnWrite.packet

def messages (l : List ConnWrite) : List Packet :=
  (l.filter fun w => w.origin == .kex && w.packet.tag != msgKexInit &&
    w.packet.tag != msgNewKeys).map ConnWrite.packet

def changes (l : List ConnWrite) : Nat := l.countP fun w => w.packet.tag == msgNewKeys

theorem inits_append (l l' : List ConnWrite) : inits (l ++ l') = inits l ++ inits l' := by
  simp [inits]

theorem messages_append (l l' : List ConnWrite) :
    messages (l ++ l') = messages l ++ messages l' := by
  simp [messages]

theorem changes_append (l l' : List ConnWrite) : changes (l ++ l') = changes l + changes l' := by
  simp [changes]

theorem getElem?_of_append {l l' : List α} {n : Nat} (h : l[n]? = some a) :
    (l ++ l')[n]? = some a := by
  rw [List.getElem?_append_left (List.getElem?_eq_some_iff.mp h).1]
  exact h

inductive Phase.Next (ph : Phase) (w : ConnWrite) : Phase → Prop where
  | kexInit (hw : w.packet.tag = msgKexInit) (hp : ph = .start ∨ ph = .keyed) : Next ph w .init
  | newKeys (hw : w.packet.tag = msgNewKeys) (hp : ph = .message) : Next ph w .keyed
  | app (hw : w.packet.plain) (ho : w.origin = .app) (hp : ph = .start ∨ ph = .keyed) :
      Next ph w ph
  | kex (hw : w.packet.plain) (ho : w.origin = .kex) (hp : ph = .init) : Next ph w .message

theorem Phase.next_cases {ph ph' : Phase} (h : ph.next early w = some ph') : ph.Next w ph' := by
  unfold Phase.next at h
  split at h
  · rename_i hw
    obtain ⟨hp, rfl⟩ := of_guard h
    exact .kexInit hw hp
  rename_i hi
  split at h
  · rename_i hw
    obtain ⟨hp, rfl⟩ := of_guard h
    exact .newKeys hw hp
  rename_i hn
  split at h
  · rename_i ho
    obtain ⟨hp, rfl⟩ := of_guard h
    exact .app ⟨hi, hn⟩ ho (hp.elim .inr fun hp => .inl hp.1)
  · rename_i ho
    obtain ⟨hp, rfl⟩ := of_guard h
    exact .kex ⟨hi, hn⟩ ho hp
  · cases h

theorem Phase.Next.counts {ph ph' : Phase} (h : ph.Next w ph') :
    (inits [w], messages [w], changes [w]) =
      if w.packet.tag = msgKexInit then ([w.packet], [], 0)
      else if w.packet.tag = msgNewKeys then ([], [], 1)
      else if w.origin = .kex then ([], [w.packet], 0) else ([], [], 0) := by
  cases h with
  | kexInit hw hp | newKeys hw hp => simp [inits, messages, changes, hw, msgKexInit, msgNewKeys]
  | app hw ho hp | kex hw ho hp => simp [inits, messages, changes, hw.1, hw.2, ho]

def Phase.Counts (ph : Phase) (l : List ConnWrite) : Prop :=
  match ph with
  | .start | .keyed => (inits l).length = changes l ∧ (messages l).length = changes l
  | .init => (inits l).length = changes l + 1 ∧ (messages l).length = changes l
  | .message => (inits l).length = changes l + 1 ∧ (messages l).length = changes l + 1

theorem wirePhase_concat (h : wirePhase early (l ++ [w]) = some ph') :
    ∃ ph, wirePhase early l = some ph ∧ ph.Next w ph' := by
  simp only [wirePhase, List.foldlM_append, List.foldlM_cons, List.foldlM_nil] at h
  obtain ⟨ph, hl, hph⟩ := bind_eq_some_iff.mp h
  exact ⟨ph, hl, Phase.next_cases (by simpa using hph)⟩

theorem counts_of_wirePhase (h : wirePhase early l = some ph) : ph.Counts l := by
  induction l using reverseRecOn generalizing ph with
  | nil =>
    cases h
    exact ⟨rfl, rfl⟩
  | append_singleton l w ih =>
    obtain ⟨ph₀, hl, hn⟩ := wirePhase_concat h
    have hc := ih hl
    have hadd := hn.counts
    cases hn with
    | kexInit hw hp =>
      rw [if_pos hw] at hadd
      simp only [Prod.mk.injEq] at hadd
      simp only [Phase.Counts, inits_append, messages_append, changes_append, hadd]
      obtain rfl | rfl := hp <;> simpa [Phase.Counts] using hc
    | newKeys hw hp =>
      subst hp
      rw [hw, if_neg (by decide), if_pos rfl] at hadd
      simp only [Prod.mk.injEq] at hadd
      simp only [Phase.Counts, inits_append, messages_append, changes_append, hadd]
      simpa [Phase.Counts] using hc
    | app hw ho hp =>
      rw [if_neg hw.1, if_neg hw.2, ho, if_neg (by decide)] at hadd
      simp only [Prod.mk.injEq] at hadd
      obtain rfl | rfl := hp <;>
        simpa [Phase.Counts, inits_append, messages_append, changes_append, hadd] using hc
    | kex hw ho hp =>
      subst hp
      rw [if_neg hw.1, if_neg hw.2, if_pos ho] at hadd
      simp only [Prod.mk.injEq] at hadd
      simp only [Phase.Counts, inits_append, messages_append, changes_append, hadd]
      simpa [Phase.Counts] using hc

theorem wirePhase_of_append (h : wirePhase early (l ++ l') = some ph) :
    ∃ ph', wirePhase early l = some ph' := by
  simp only [wirePhase, List.foldlM_append] at h
  obtain ⟨ph', hl, -⟩ := bind_eq_some_iff.mp h
  exact ⟨ph', hl⟩

def ExchangePc.hears : ExchangePc → Phase
  | .parse | .skipGuess => .init
  | .kex todo => if .read ∈ todo then .init else .message
  | .prepare | .newKeysOut | .newKeysIn => .message

def KexPc.request : KexPc → Option Packet
  | .select request _ | .lockInit request | .pushInit request | .record _ request
  | .check request => request
  | _ => none

/-- The phase of the packets heard while `readLoop` waits for `kexLoop`; `none` when it does not. -/
def KexPc.waiting : KexPc → Option Phase
  | .exchange x => some x.hears
  | .lockFinish _ | .clear | .notify => some .keyed
  | k => k.request.map fun _ => .init

theorem KexPc.request_of_waiting {k : KexPc} (h : k.waiting = none) : k.request = none := by
  cases k <;> simp_all [KexPc.waiting, KexPc.request]

namespace HandshakeTransport

variable {t t' : HandshakeTransport}

def Blocked (t : HandshakeTransport) : Prop :=
  (∃ b, t.reader = .await b) ∧ t.done = none ∧ t.startKex = none

/-- Where `readLoop` is after packets up to phase `ph`, the last KEXINIT of them being `init`, while
`kexLoop` has no request. -/
def Listening (t : HandshakeTransport) (ph : Phase) (init : Option Packet) : Prop :=
  match t.reader with
  | .read _ | .deliver _ => t.startKex = none ∧ (ph = .start ∨ ph = .keyed)
  | .got _ p => t.startKex = none ∧
      if p.tag = msgKexInit then ph = .init ∧ init = some p else ph = .start ∨ ph = .keyed
  | .offer p _ => t.startKex = none ∧ ph = .init ∧ init = some p
  | .await _ =>
    (∃ p, t.startKex = some p ∧ t.done = none ∧ ph = .init ∧ init = some p) ∨
      t.startKex = none ∧ t.done = some none ∧ ph = .keyed
  | _ => False

structure Hears (t : HandshakeTransport) (ph : Phase) (init : Option Packet) : Prop where
  request : ∀ p, t.kex.request = some p → init = some p
  noGuess : t.kex ≠ .exchange .skipGuess
  blocked : ∀ ph', t.kex.waiting = some ph' → t.Blocked ∧ ph = ph'
  listening : t.kex.waiting = none → t.Listening ph init

theorem Hears.frame (h : t.Hears ph init) (hr : t'.reader = t.reader)
    (hs : t'.startKex = t.startKex) (hd : t'.done = t.done)
    (hq : ∀ p, t'.kex.request = some p → t.kex.request = some p)
    (hw : t'.kex.waiting = t.kex.waiting) (hg : t'.kex ≠ .exchange .skipGuess) :
    t'.Hears ph init := by
  refine ⟨fun p hp => h.request p (hq p hp), hg, ?_, ?_⟩
  · intro ph' hph
    rw [Blocked, hr, hs, hd]
    exact h.blocked ph' (hw ▸ hph)
  · intro hn
    rw [Listening, hr, hs, hd]
    exact h.listening (hw ▸ hn)

theorem hears_new (c : HandshakeConfig) : (new c).Hears .start none where
  request _ h := by cases h
  noGuess h := by cases h
  blocked _ h := by cases h
  listening _ := ⟨rfl, .inl rfl⟩

theorem Hears.writerStep (h : t.Hears ph init) (hs : WriterStep t i r t') : t'.Hears ph init := by
  cases hs <;> exact h.frame rfl rfl rfl (fun _ => id) rfl h.noGuess

theorem Hears.start (h : t.Hears ph init) (hs : t.startKex = some p)
    (hr : k.request = some p) (hk : k.waiting = some .init) (hg : k ≠ .exchange .skipGuess) :
    ({ t with startKex := none, kex := k } : HandshakeTransport).Hears ph init := by
  have hw : t.kex.waiting = none := by
    by_contra hne
    obtain ⟨ph', hph⟩ := ne_none_iff_exists'.mp hne
    cases (h.blocked ph' hph).1.2.2.symm.trans hs
  have hl := h.listening hw
  unfold Listening at hl
  split at hl
  all_goals first
    | exact absurd (hl.1.symm.trans hs) (by simp)
    | exact hl.elim
    | skip
  rename_i b hb
  obtain ⟨q, hq, hd, rfl, hi⟩ | ⟨hn, -⟩ := hl
  · cases hq.symm.trans hs
    refine ⟨?_, hg, ?_, ?_⟩
    · intro p' hp
      cases hr.symm.trans hp
      exact hi
    · intro ph' hph
      cases hk.symm.trans hph
      exact ⟨⟨⟨b, hb⟩, hd, rfl⟩, rfl⟩
    · intro hn
      cases hk.symm.trans hn
  · cases hn.symm.trans hs

theorem afterInit_request (request : Option Packet) : (afterInit request).request = request := by
  cases request <;> rfl

theorem afterInit_waiting (request : Option Packet) :
    (afterInit request).waiting = request.map fun _ => .init := by
  cases request <;> rfl

theorem Hears.afterInit {request : Option Packet} (h : t.Hears ph init)
    (hk : t.kex = .lockInit request ∨ t.kex = .pushInit request)
    (hr : t'.reader = t.reader) (hs : t'.startKex = t.startKex) (hd : t'.done = t.done)
    (ht : t'.kex = HandshakeTransport.afterInit request) : t'.Hears ph init := by
  refine h.frame hr hs hd (fun p hp => ?_) ?_ ?_
  · rw [ht, afterInit_request] at hp
    obtain hk | hk := hk <;> rw [hk] <;> exact hp
  · rw [ht, afterInit_waiting]
    obtain hk | hk := hk <;> rw [hk] <;> rfl
  · rw [ht]
    cases request <;> exact nofun

theorem hears_kexTraffic (isServer : Bool) :
    (ExchangePc.kex (kexTraffic isServer)).hears = .init := by
  cases isServer <;> rfl

theorem Hears.kexStep (h : t.Hears ph init) (ho : Orderly true t ph') (hg : t.Smooth (.kex c))
    (hs : KexStep t c t') (hx : ∀ x, t.kex ≠ .exchange x) : t'.Hears ph init := by
  have hh := ho.kex
  have hrun := ho.running
  cases hs with
  | enter hk hmu hne | checkPass hk hmu hne | @finish r n b hk hmu | cleared hk
  | @flush p todo body hk r | unlock hk =>
    exact h.frame rfl rfl rfl nofun (by rw [hk]; rfl) nofun
  | startUnsent hk hs | startSent hk hs => exact h.start hs rfl rfl nofun
  | requestUnsent hk hr | initLock hk hmu hs =>
    exact h.frame rfl rfl rfl (fun _ hp => by rw [hk]; exact hp) (by rw [hk]; rfl)
      nofun
  | requestSent hk hr =>
    exact h.frame rfl rfl rfl (fun _ hp => by rw [hk]; exact hp) (by rw [hk])
      nofun
  | initAlready hk hmu hs => exact h.afterInit (.inl hk) rfl rfl rfl rfl
  | initPushed hk => exact h.afterInit (.inr hk) rfl rfl rfl rfl
  | clear hk => exact h.frame rfl rfl rfl (fun _ => id) rfl h.noGuess
  | notify hk =>
    obtain ⟨⟨⟨b, hb⟩, -, hs⟩, rfl⟩ := h.blocked .keyed (by rw [hk]; rfl)
    refine ⟨nofun, nofun, nofun, ?_⟩
    intro _
    simp only [Listening, hb, ho.noError]
    exact .inr ⟨hs, trivial, trivial⟩
  | exchange hk _ => exact absurd hk (hx _)
  | giveUp hk hmu hne => exact absurd ho.noError hne
  | startClosed hk hs hc => cases hrun.2.1.symm.trans hc
  | stop hk hs => cases hrun.1.symm.trans hs
  | initFailed hk => cases hg
  | checkRefuse hk hmu hne | checkLeave hk hmu hne => cases ho.noError.symm.trans hne
  | record hk hmu | refuse hk | leave hk =>
    rw [hk] at hh
    cases hh

theorem Hears.exchanges (h : t.Hears ph init) (hk : t.kex = .exchange x) (hs : Exchanges t x c t')
    (hg : ∀ a, c ≠ .parsed a true) (hp : ∀ p, c ≠ .packet p) : t'.Hears ph init := by
  cases hs with
  | @parsed a guess =>
    cases guess with
    | true => exact absurd rfl (hg a)
    | false =>
      refine h.frame rfl rfl rfl nofun ?_ nofun
      rw [hk]
      exact congrArg some (hears_kexTraffic _)
  | @kexWrote p todo hm =>
    refine h.frame rfl rfl rfl nofun ?_ nofun
    rw [hk]
    simp [KexPc.waiting, ExchangePc.hears]
  | result | prepared | newKeysOut =>
    exact h.frame rfl rfl rfl nofun (by rw [hk]; rfl) nofun
  | skipped | kexRead | newKeysIn => exact absurd rfl (hp _)

theorem Hears.waiting_of_reader (h : t.Hears ph init)
    (hr : ∀ b, t.reader = .await b → t.done ≠ none) : t.kex.waiting = none := by
  by_contra hne
  obtain ⟨ph', hph⟩ := ne_none_iff_exists'.mp hne
  obtain ⟨⟨⟨b, hb⟩, hd, -⟩, -⟩ := h.blocked ph' hph
  exact hr b hb hd

theorem Hears.of_listening (h : t.Hears ph init) (hw : t.kex.waiting = none) (hk : t'.kex = t.kex)
    (hl : t'.Listening ph init) : t'.Hears ph init := by
  refine ⟨by rw [hk]; exact h.request, by rw [hk]; exact h.noGuess, ?_, fun _ => hl⟩
  intro ph' hph
  rw [hk, hw] at hph
  cases hph

theorem listening_afterRead (hr : t.reader = afterRead p) (hs : t.startKex = none)
    (hph : ph = .start ∨ ph = .keyed) : t.Listening ph init := by
  unfold Listening
  rw [hr, afterRead]
  split_ifs
  · exact ⟨hs, hph⟩
  · exact ⟨hs, hph⟩

theorem Hears.readStep (h : t.Hears ph init) (ho : Orderly true t ph') (hg : t.Smooth (.read c))
    (hp : ∀ p, c ≠ .packet p) (hs : ReadStep t c t') : t'.Hears ph init := by
  have hh := ho.reader
  have hrun := ho.running
  cases hs with
  | read hr => exact absurd rfl (hp _)
  | @got first p n b q hr =>
    have hw := h.waiting_of_reader (by rw [hr]; simp)
    have hl := h.listening hw
    simp only [Listening, hr] at hl
    obtain ⟨hs, hl⟩ := hl
    refine h.of_listening hw rfl ?_
    split at hl
    · rename_i hkex
      simpa [Listening, dispatch, hkex] using ⟨hs, hl⟩
    rename_i hkex
    have hfirst : ¬ (first = true ∧ p.tag ≠ msgKexInit) := by
      rintro ⟨rfl, -⟩
      rw [Smooth, hr] at hg
      exact hkex (of_decide_eq_true hg)
    have hd : t.dispatch first p = afterRead p := by
      rw [dispatch, if_neg hfirst, if_pos hkex]
    exact listening_afterRead hd hs hl
  | @offer p k hr hs =>
    have hw := h.waiting_of_reader (by rw [hr]; simp)
    have hl := h.listening hw
    simp only [Listening, hr] at hl
    exact h.of_listening hw rfl (.inl ⟨p, rfl, rfl, hl.2⟩)
  | awaitOk hr hd =>
    have hw := h.waiting_of_reader (by rw [hd]; simp)
    have hl := h.listening hw
    simp only [Listening, hr] at hl
    obtain ⟨p, -, hn, -⟩ | ⟨hs, -, hph⟩ := hl
    · cases hn.symm.trans hd
    · exact h.of_listening hw rfl (listening_afterRead rfl hs (.inr hph))
  | deliver hr hl =>
    have hw := h.waiting_of_reader (by rw [hr]; simp)
    have hl := h.listening hw
    simp only [Listening, hr] at hl
    exact h.of_listening hw rfl hl
  | awaitFail hr hd => exact absurd hd (ho.answer _)
  | readFail hr => exact hg.elim
  | offerStop hr hs | awaitStop hr hs | deliverStop hr hs => cases hrun.1.symm.trans hs
  | fail hr | record hr hmu hw | closeStart hr =>
    rw [hr] at hh
    cases hh

def Action.guessed : Action → Bool
  | .kex (.parsed _ guess) => guess
  | _ => false

theorem Hears.step (h : t.Hears ph init) (ho : Orderly true t ph') (hg : t.Smooth a)
    (hn : a.guessed = false) (hp : a.takes = false) (hs : t.step a = some t') :
    t'.Hears ph init := by
  cases step_cases hs with
  | writer hs => exact h.writerStep hs
  | kex hk =>
    by_cases hx : ∃ x, t.kex = .exchange x
    · obtain ⟨x, hx⟩ := hx
      refine h.exchanges hx (exchanges_of_smooth hx hg hs) ?_ ?_
      · rintro a rfl
        cases hn
      · rintro p rfl
        cases hp
    · exact h.kexStep ho hg hk fun x hk => hx ⟨x, hk⟩
  | read hs =>
    refine h.readStep ho hg ?_ hs
    rintro p rfl
    cases hp
  | drain hs =>
    have hd := ho.running.2.2
    cases hs with
    | stop hst => cases ho.running.1.symm.trans hst
    | take hd' _ | spin hd' _ | reply hd' => cases hd.symm.trans hd'
  | call | requestKeyExchange | receive =>
    exact h.frame rfl rfl rfl (fun _ => id) rfl h.noGuess
  | halt => exact hg.elim

inductive Progress (t : HandshakeTransport) (a : Action) (t' : HandshakeTransport) : Prop where
  | beside (hk : t'.kex = t.kex ∧ (∀ c, a ≠ .kex c) ∨
        (∀ x, t.kex ≠ .exchange x) ∧ ∀ x, t'.kex ≠ .exchange x)
      (hi : ∀ q, t'.sentInitMsg = some q → t.sentInitMsg = some q) (hs : t'.sent = t.sent)
  | app (hp : p.plain) (hk : t'.kex = t.kex ∧ (∀ c, a ≠ .kex c) ∨
        (∀ x, t.kex ≠ .exchange x) ∧ ∀ x, t'.kex ≠ .exchange x)
      (hi : t'.sentInitMsg = t.sentInitMsg) (hs : t'.sent = t.sent ++ [⟨.app, p, none⟩])
  | kexInit (hk : (∀ x, t.kex ≠ .exchange x) ∧ ∀ x, t'.kex ≠ .exchange x)
      (hi : t'.sentInitMsg = some ⟨msgKexInit, body⟩)
      (hs : t'.sent = t.sent ++ [⟨.kexInit, ⟨msgKexInit, body⟩, none⟩])
  | entered (ha : a = .kex .go) (hk : t.kex = .check (some p)) (hk' : t'.kex = .exchange .parse)
      (hi : t'.sentInitMsg = t.sentInitMsg) (hs : t'.sent = t.sent)
  | exchanges (ha : a = .kex c) (hk : t.kex = .exchange x) (hx : Exchanges t x c t')

theorem plain_of_push {i : Nat} {p : Packet} (ho : Orderly early t ph)
    (hw : t.writers[i]? = some ⟨p, .push⟩) : p.plain := by
  obtain ⟨r, hr⟩ | hr := ho.plain _ (mem_of_getElem? hw)
  · cases hr
  · exact hr

theorem progress_kex (ho : Orderly true t ph) (hg : t.Smooth (.kex c)) (hs : KexStep t c t')
    (hx : ∀ x, t.kex ≠ .exchange x) : Progress t (.kex c) t' := by
  cases hs with
  | initPushed hk =>
    refine .kexInit ⟨hx, ?_⟩ rfl rfl
    rename_i request body
    cases request <;> exact fun x hc => by cases hc
  | initAlready hk hmu hs =>
    refine .beside (.inr ⟨hx, ?_⟩) (fun _ => id) rfl
    rename_i request
    cases request <;> exact fun x hc => by cases hc
  | checkPass hk hmu he => exact .entered rfl hk rfl rfl rfl
  | exchange hk _ => exact absurd hk (hx _)
  | finish hk hmu =>
    exact .beside (.inr ⟨hx, fun x hc => by cases hc⟩) nofun rfl
  | flush hk r =>
    obtain rfl : r = none := hg
    exact .app (ho.flushing _ hk _ mem_cons_self) (.inr ⟨hx, fun x hc => by cases hc⟩) rfl rfl
  | initFailed hk => cases hg
  | clear hk => exact .beside (.inr ⟨hx, hx⟩) (fun _ => id) rfl
  | _ => exact .beside (.inr ⟨hx, fun x hc => by cases hc⟩) (fun _ => id) rfl

theorem progress_of_step (ho : Orderly true t ph) (hg : t.Smooth a) (hs : t.step a = some t') :
    Progress t a t' := by
  cases step_cases hs with
  | @writer i r _ hs =>
    obtain rfl : r = none := hg
    cases hs with
    | push hw => exact .app (plain_of_push ho hw) (.inl ⟨rfl, by simp⟩) rfl rfl
    | _ => exact .beside (.inl ⟨rfl, by simp⟩) (fun _ => id) rfl
  | kex hk =>
    by_cases hx : ∃ x, t.kex = .exchange x
    · obtain ⟨x, hx⟩ := hx
      exact .exchanges rfl hx (exchanges_of_smooth hx hg hs)
    · exact progress_kex ho hg hk fun x hk => hx ⟨x, hk⟩
  | read hs | drain hs =>
    cases hs <;> exact .beside (.inl ⟨rfl, by simp⟩) (fun _ => id) rfl
  | call | requestKeyExchange | receive =>
    exact .beside (.inl ⟨rfl, by simp⟩) (fun _ => id) rfl
  | halt => exact hg.elim

end HandshakeTransport

end XCryptoSsh
