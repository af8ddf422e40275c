import XCryptoSsh.Channel
import XCryptoSsh.Machine
import XCryptoSsh.Messages
import XCryptoSsh.Strings

namespace XCryptoSsh
set_option autoImplicit true

open Go Machine List Option

/-- `ParseIP` and the text of an `IP`, from the package `net`. -/
structure NetIP where
  parseIP : Bytes → Option Bytes
  string : Bytes → Bytes

structure TCPAddr where
  ip : Bytes
  port : Int
  zone : Bytes
  deriving DecidableEq, Repr

/-- Addresses are compared by their network and their text. -/
abbrev NetAddr := String × Bytes

def joinHostPort (host port : Bytes) : Bytes :=
  if 0x3a ∈ host then 0x5b :: host ++ [0x5d, 0x3a] ++ port else host ++ 0x3a :: port

def TCPAddr.addr (N : NetIP) (a : TCPAddr) : NetAddr :=
  let host := if a.ip = [] then [] else N.string a.ip
  ("tcp", joinHostPort (if a.zone = [] then host else host ++ 0x25 :: a.zone)
    (ascii (toString a.port)))

/-- A call of `ListenTCP` or `ListenUnix` whose request is granted, with the reply. -/
inductive ListenCall where
  | tcp (laddr : TCPAddr) (resp : Bytes)
  | unix (socketPath : Bytes)
  deriving DecidableEq, Repr

def portReply : StructType := ⟨"", [], [⟨"Port", .uint32⟩], by simp, by simp⟩

/-- What the call goes on to register, unless it cannot read the reply. -/
def ListenCall.laddr (N : NetIP) : ListenCall → Option NetAddr
  | .tcp laddr resp =>
    if laddr.port = 0 then match unmarshal portReply resp with
      | .ok (port, _) => some ({ laddr with port := UInt32.toNat port }.addr N)
      | .error _ => none
    else some (laddr.addr N)
  | .unix socketPath => some ("unix", socketPath)

def forwardedTCPPayload : StructType :=
  ⟨"forwardedTCPPayload", [], [⟨"Addr", .string⟩, ⟨"Port", .uint32⟩, ⟨"OriginAddr", .string⟩,
    ⟨"OriginPort", .uint32⟩], by simp, by simp⟩

def forwardedStreamLocalPayload : StructType :=
  ⟨"forwardedStreamLocalPayload", [], [⟨"SocketPath", .string⟩, ⟨"Reserved0", .string⟩], by simp,
    by simp⟩

def parseTCPAddr (N : NetIP) (addr : Bytes) (port : UInt32) : Except String TCPAddr :=
  if port = 0 ∨ port > 65535 then
    .error ("ssh: port number out of range: " ++ toString port.toNat)
  else match N.parseIP addr with
    | none => .error ("ssh: cannot parse IP address " ++ quoteBytes addr)
    | some ip => .ok ⟨ip, port.toNat, []⟩

/-- A channel of one of the two types that `HandleChannels` takes, by its extra data. -/
inductive NewForward where
  | tcp (extraData : Bytes)
  | unix (extraData : Bytes)
  deriving DecidableEq, Repr

/-- The addresses `laddr` and `raddr`, or the message of a rejection. -/
def NewForward.addrs (N : NetIP) : NewForward → Except String (NetAddr × NetAddr)
  | .tcp extraData => match unmarshal forwardedTCPPayload extraData with
    | .error e => .error ("could not parse forwarded-tcpip payload: " ++ e.error)
    | .ok (addr, port, originAddr, originPort, _) => do
      let laddr ← parseTCPAddr N addr port
      let raddr ← parseTCPAddr N originAddr originPort
      pure (laddr.addr N, raddr.addr N)
  | .unix extraData => match unmarshal forwardedStreamLocalPayload extraData with
    | .error e =>
      .error ("could not parse forwarded-streamlocal@openssh.com payload: " ++ e.error)
    | .ok (socketPath, _) => .ok (("unix", socketPath), ("unix", ascii "@"))

inductive RejectionReason where
  | prohibited
  | connectionFailed
  deriving DecidableEq, Repr

/-- How `HandleChannels` is done with a channel: it is in the queue of an entry, or rejected. -/
inductive ForwardResult where
  | delivered (entry : NetAddr × Nat) (raddr : NetAddr)
  | rejected (reason : RejectionReason) (message : String)
  deriving DecidableEq, Repr

/-- The remote forwards of a `Client`. `queues` are the Go channels of capacity one that `add` made,
`sending` is the call of `Forward` that holds the mutex in its `select`, and `granted` is what the
calls with a success have yet to `add`. -/
structure Forwards where
  entries : List (NetAddr × Nat)
  queues : List (Queue NetAddr)
  sending : Option ((NetAddr × Nat) × NetAddr)
  granted : List NetAddr
  results : List ForwardResult
  done : Bool
  deriving DecidableEq, Repr

/-- `send` and `cancel` are the two ways out of the `select` of `Forward`; `done` ends the
connection or the context. -/
inductive ForwardAct where
  | grant (call : ListenCall)
  | add (laddr : NetAddr)
  | forward (ch : NewForward)
  | send
  | cancel
  | accept (queue : Nat)
  | remove (laddr : NetAddr)
  | closeAll
  | done
  deriving DecidableEq, Repr

namespace Forwards

def new : Forwards := ⟨[], [], none, [], [], false⟩

def entry (s : Forwards) (laddr : NetAddr) : Option (NetAddr × Nat) :=
  s.entries.find? (·.1 = laddr)

def full (s : Forwards) (q : Nat) : Bool := s.queues[q]?.any fun c => c.items ≠ []

def closed (queues : List (Queue NetAddr)) (e : NetAddr × Nat) : List (Queue NetAddr) :=
  queues.modify e.2 fun c => { c with closed := true }

def step (N : NetIP) (s : Forwards) : ForwardAct → Option Forwards
  | .grant call => some { s with granted := (call.laddr N).toList ++ s.granted }
  | .add laddr =>
    if s.sending = none ∧ laddr ∈ s.granted then
      some { s with
        granted := s.granted.erase laddr
        entries := s.entries ++ [(laddr, s.queues.length)]
        queues := s.queues ++ [.empty] }
    else none
  | .forward ch => match ch.addrs N with
    | .error message =>
      some { s with results := s.results ++ [.rejected .connectionFailed message] }
    | .ok (laddr, raddr) =>
      if s.sending = none then match s.entry laddr with
        | some e => some { s with sending := some (e, raddr) }
        | none => some { s with
            results := s.results ++ [.rejected .prohibited "no forward for address"] }
      else none
  | .send => match s.sending with
    | some (e, raddr) =>
      if s.full e.2 then none
      else some { s with
        queues := s.queues.modify e.2 fun c => { c with items := c.items ++ [raddr] }
        results := s.results ++ [.delivered e raddr]
        sending := none }
    | none => none
  | .cancel => if s.done then some { s with sending := none } else none
  | .accept q => match s.queues[q]? with
    | some ⟨_ :: rs, closed⟩ => some { s with queues := s.queues.set q ⟨rs, closed⟩ }
    | _ => none
  | .remove laddr =>
    if s.sending = none then match s.entry laddr with
      | some e => some { s with queues := closed s.queues e, entries := s.entries.erase e }
      | none => some s
    else none
  | .closeAll =>
    if s.sending = none then
      some { s with queues := s.entries.foldl closed s.queues, entries := [] }
    else none
  | .done => some { s with done := true }

/-- A goroutine holds the mutex and waits for space in a listener's queue. -/
def Waits (s : Forwards) : Prop :=
  s.done = false ∧ ∃ e raddr, s.sending = some (e, raddr) ∧ s.full e.2 = true

/-- When `Forward` gets the mutex, there is space in the queue of the listener it finds. -/
def Roomy (N : NetIP) (s : Forwards) : ForwardAct → Prop
  | .forward ch => s.done = false → s.sending = none → ∀ laddr raddr e,
    ch.addrs N = .ok (laddr, raddr) → s.entry laddr = some e → s.full e.2 = false
  | _ => True

variable {N : NetIP} {s s' t t' : Forwards}

theorem waits_step_iff (hn : ¬ s.Waits) (hs : s.step N a = some s') :
    s'.Waits ↔ ¬ s.Roomy N a := by
  have hkeep (h : s'.Waits → s.Waits) (hr : s.Roomy N a) : s'.Waits ↔ ¬ s.Roomy N a :=
    iff_of_false (mt h hn) (not_not_intro hr)
  have hnone (h : s'.sending = none) (hr : s.Roomy N a) : s'.Waits ↔ ¬ s.Roomy N a :=
    hkeep (fun ⟨_, e, r, hq, _⟩ => by rw [h] at hq; cases hq) hr
  cases a with
  | forward ch =>
    simp only [step] at hs
    split at hs
    · rename_i he
      cases hs
      exact hkeep id fun _ _ _ _ _ h => by cases he.symm.trans h
    rename_i laddr raddr hok
    obtain ⟨hfree, hs⟩ := ite_none_right_eq_some.mp hs
    split at hs
    · rename_i e he
      cases hs
      constructor
      · rintro ⟨hd, e', r, ⟨⟩, hfull⟩ hroomy
        cases (hroomy hd hfree laddr raddr e hok he).symm.trans hfull
      intro hr
      simp only [Roomy, not_forall, Bool.not_eq_false] at hr
      obtain ⟨hd, -, x, r, e', hok', he', hfull⟩ := hr
      cases hok.symm.trans hok'
      cases he.symm.trans he'
      exact ⟨hd, e, raddr, rfl, hfull⟩
    · rename_i he
      cases hs
      refine hnone hfree fun _ _ _ _ _ hok' he' => ?_
      cases hok.symm.trans hok'
      cases he.symm.trans he'
  | accept k =>
    simp only [step] at hs
    split at hs
    · rename_i r rs closed hk
      cases hs
      -- only the queue that has just lost an item is another one
      refine hkeep (fun ⟨hd, e, r', hq, hfull⟩ => ⟨hd, e, r', hq, ?_⟩) trivial
      by_cases hqk : k = e.2
      · subst hqk
        simp [full, hk]
      · simpa [full, getElem?_set_ne hqk] using hfull
    · cases hs
  | add | send | cancel | remove | closeAll =>
    simp only [step] at hs
    repeat' split at hs
    all_goals cases hs <;> exact hnone (by simp_all) trivial
  | grant =>
    cases hs
    exact hkeep id trivial
  | done =>
    cases hs
    exact hkeep (fun ⟨hd, _⟩ => by cases hd) trivial

/-- No goroutine comes to wait for space in a queue with the mutex in its hands exactly when every
connection is forwarded while its listener's queue has space; otherwise the mutex is free or its
holder can go on by itself. -/
theorem never_waits_iff (N : NetIP) (as : List ForwardAct) :
    (Along (step N) (Roomy N) new as ↔
      Along (step N) (fun s a => ∀ s', s.step N a = some s' → ¬ s'.Waits) new as) ∧
    ∀ s : Forwards,
      ¬ s.Waits ↔ s.sending = none ∨ s.step N .send ≠ none ∨ s.step N .cancel ≠ none := by
  constructor
  · have hnew : ¬ new.Waits := fun ⟨_, _, _, hq, _⟩ => by cases hq
    generalize new = s at hnew
    induction as generalizing s with
    | nil => exact iff_of_true trivial trivial
    | cons a as ih =>
      cases hs : s.step N a with
      | none =>
        refine iff_of_true ⟨?_, fun _ hu => ?_⟩ ⟨fun _ hu => ?_, fun _ hu => ?_⟩
        · cases a with
          | forward ch =>
            intro _ hfree laddr raddr e hok he
            simp [step, hfree, hok, he] at hs
          | _ => trivial
        all_goals cases hs.symm.trans hu
      | some u =>
        have hu := waits_step_iff hnew hs
        simp only [Along, hs, some.injEq, forall_eq']
        by_cases hr : s.Roomy N a
        · have hw : ¬ u.Waits := fun hw => hu.mp hw hr
          simp only [hr, hw, not_false_eq_true, true_and]
          exact ih u hw
        · simp only [hr, hu.mpr hr, not_true_eq_false, false_and]
  · intro s
    cases hq : s.sending with
    | none => exact iff_of_true (fun ⟨_, _, _, hq', _⟩ => by cases hq.symm.trans hq') (.inl rfl)
    | some x =>
      obtain ⟨e, r⟩ := x
      cases hd : s.done <;> cases hf : s.full e.2 <;> simp [Waits, step, hq, hd, hf]

def tenIP (x : UInt8) : Bytes := replicate 10 0 ++ [0xff, 0xff, 10, 0, 0, x]

/-- What the package has for 10.0.0.1 and 10.0.0.2. -/
def tenNet : NetIP where
  parseIP text := [1, 2].findSome? fun x =>
    if text = ascii "10.0.0." ++ [0x30 + x] then some (tenIP x) else none
  string ip := ascii "10.0.0." ++ [0x30 + ip.getLastD 0]

def listening : NetAddr := ("tcp", ascii "10.0.0.1:80")

def origin : NetAddr := ("tcp", ascii "10.0.0.2:4000")

def listenCall : ListenCall := .tcp ⟨tenIP 1, 80, []⟩ []

def opened : NewForward :=
  .tcp ([0, 0, 0, 8] ++ ascii "10.0.0.1" ++ [0, 0, 0, 80] ++ [0, 0, 0, 8] ++ ascii "10.0.0.2" ++
    [0, 0, 15, 160])

/-- A second connection for a listener that does not accept the first: neither `Close` of the
listener nor any other use of the list can go on. -/
theorem waits_for_listener :
    ∃ s, exec (step tenNet) new [.grant listenCall, .add listening, .forward opened, .send,
        .forward opened] = some s ∧ s.Waits ∧ s.step tenNet (.remove listening) = none ∧
      s.step tenNet .closeAll = none ∧
      ∀ ch x r, ch.addrs tenNet = .ok (x, r) → s.step tenNet (.forward ch) = none := by
  let s : Forwards := ⟨[(listening, 0)], [⟨[origin], false⟩], some ((listening, 0), origin), [],
    [.delivered (listening, 0) origin], false⟩
  have hs : exec (step tenNet) new [.grant listenCall, .add listening, .forward opened, .send,
      .forward opened] = some s := by
    decide +kernel
  refine ⟨s, hs, ⟨rfl, _, _, rfl, rfl⟩, rfl, rfl, fun ch x r h => ?_⟩
  simp [step, h, s]

/-- The call of `ListenTCP` has its success, and either it has registered the address or it has yet
to. -/
def Registers (laddr : NetAddr) (s : Forwards) : Prop :=
  s.entry laddr = none ∧ s.granted.count laddr = 1 ∨
    s.entry laddr ≠ none ∧ s.granted.count laddr = 0

/-- The address is neither given up nor listened on once more. -/
def Keeps (N : NetIP) (laddr : NetAddr) : ForwardAct → Prop
  | .grant call => call.laddr N ≠ some laddr
  | .remove x => x ≠ laddr
  | .closeAll => False
  | _ => True

theorem find?_erase_of_neg [BEq α] [LawfulBEq α] {l : List α} {p : α → Bool} (h : p x = false) :
    (l.erase x).find? p = l.find? p := by
  induction l with
  | nil => rfl
  | cons y l ih =>
    rw [erase_cons]
    split
    · rename_i hy
      rw [eq_of_beq hy, find?_cons_of_neg (by simp [h])]
    · rw [find?_cons, find?_cons, ih]

theorem Registers.step (h : Registers laddr s) (hk : Keeps N laddr a)
    (hs : s.step N a = some s') : Registers laddr s' := by
  cases a with
  | grant call =>
    cases hs
    cases hc : call.laddr N with
    | none => exact h
    | some x =>
      have hx : x ≠ laddr := fun hx => hk (hx ▸ hc)
      simpa [Registers, entry, count_cons_of_ne hx] using h
  | add x =>
    obtain ⟨⟨-, hm⟩, rfl⟩ := of_guard hs
    by_cases hx : x = laddr
    · subst hx
      have hcount : 0 < s.granted.count x := count_pos_iff.mpr hm
      refine .inr ⟨by simp [entry], ?_⟩
      rw [count_erase_self]
      obtain ⟨-, h⟩ | ⟨-, h⟩ := h <;> omega
    · have hl : (s.entries ++ [(x, s.queues.length)]).find? (·.1 = laddr) = s.entry laddr := by
        simp [entry, hx]
      simpa only [Registers, entry, hl, count_erase_of_ne (Ne.symm hx)] using h
  | remove x =>
    obtain ⟨-, hs⟩ := ite_none_right_eq_some.mp hs
    split at hs
    · rename_i e he
      cases hs
      have hx : e.1 ≠ laddr := by
        have hex : e.1 = x := by simpa using find?_some he
        exact hex ▸ hk
      simpa [Registers, entry, find?_erase_of_neg, hx] using h
    · cases hs
      exact h
  | closeAll => exact hk.elim
  | _ =>
    simp only [Forwards.step] at hs
    repeat' split at hs
    all_goals cases hs <;> exact h

/-- Unless the connection ends, the channel comes into the queue of the entry as soon as there is
space. -/
def Delivers (N : NetIP) (e : NetAddr × Nat) (raddr : NetAddr) (s : Forwards) : Prop :=
  ∀ as u, exec (step N) s as = some u → u.done = false →
    (∃ l, u.results = s.results ++ l ∧ .delivered e raddr ∈ l) ∨
    u.sending = some (e, raddr) ∧
      (u.full e.2 = true ∨ ∃ u', u.step N .send = some u' ∧
        u'.results = u.results ++ [.delivered e raddr])

def Held (e : NetAddr × Nat) (raddr : NetAddr) (before : List ForwardResult) (s : Forwards) :
    Prop :=
  s.done = true ∨ ∃ l, s.results = before ++ l ∧
    (.delivered e raddr ∈ l ∨ s.sending = some (e, raddr))

theorem Held.of_step (h : Held e raddr before s) (hdone : s'.done = s.done)
    (hresults : s'.results = s.results ++ l) (hsending : s'.sending = s.sending) :
    Held e raddr before s' := by
  rcases h with h | ⟨l', hl', h⟩
  · exact .inl (hdone.trans h)
  · refine .inr ⟨l' ++ l, by rw [hresults, hl', append_assoc], ?_⟩
    exact h.imp (mem_append_left _) hsending.trans

theorem Held.step (h : Held e raddr before s) (hs : s.step N a = some s') :
    Held e raddr before s' := by
  cases a with
  | forward ch =>
    simp only [Forwards.step] at hs
    split at hs
    · cases hs
      exact h.of_step rfl rfl rfl
    obtain ⟨hfree, hs⟩ := ite_none_right_eq_some.mp hs
    split at hs <;> cases hs
    · rcases h with h | ⟨l, hl, h | h⟩
      · exact .inl h
      · exact .inr ⟨l, hl, .inl h⟩
      · cases hfree.symm.trans h
    · exact h.of_step rfl rfl rfl
  | send =>
    simp only [Forwards.step] at hs
    split at hs
    · rename_i x hx
      split at hs <;> cases hs
      rcases h with h | ⟨l, hl, h⟩
      · exact .inl h
      refine .inr ⟨_, by rw [hl, append_assoc], .inl ?_⟩
      rcases h with h | h
      · exact mem_append_left _ h
      · cases hx.symm.trans h
        exact mem_append_right _ mem_cons_self
    · cases hs
  | cancel =>
    obtain ⟨hd, rfl⟩ := of_guard hs
    exact .inl hd
  | done =>
    cases hs
    exact .inl rfl
  | grant | add | accept | remove | closeAll =>
    simp only [Forwards.step] at hs
    repeat' split at hs
    all_goals cases hs <;> exact h.of_step rfl (append_nil _).symm rfl

theorem delivers_of_sending (h : s.sending = some (e, raddr)) : Delivers N e raddr s := by
  intro as u hu hd
  have hheld : Held e raddr s.results u :=
    run_invariant (G := fun _ _ => True) (fun _ _ _ h _ hs => h.step hs)
      (.inr ⟨[], (append_nil _).symm, .inr h⟩) (along_of_forall fun _ _ _ => trivial) hu
  rcases hheld with hdone | ⟨l, hl, hm | hsend⟩
  · cases hd.symm.trans hdone
  · exact .inl ⟨l, hl, hm⟩
  · refine .inr ⟨hsend, ?_⟩
    cases hf : u.full e.2 with
    | true => exact .inl rfl
    | false => exact .inr (by simp [Forwards.step, hsend, hf])

theorem registers_of_grant (hn : s.entry laddr = none) (hg : laddr ∉ s.granted)
    (hcall : call.laddr N = some laddr) (h : exec (step N) s (.grant call :: as) = some t)
    (hk : ∀ a ∈ as, Keeps N laddr a) : Registers laddr t := by
  obtain ⟨u, hu, hut⟩ := exec_cons_some h
  cases hu
  rw [hcall] at hut
  have h₀ : Registers laddr { s with granted := laddr :: s.granted } :=
    .inl ⟨hn, by rw [count_cons_self, count_eq_zero.mpr hg]⟩
  exact run_invariant (G := fun _ a => Keeps N laddr a) (fun _ _ _ h hk hs => h.step hk hs) h₀
    (along_of_forall fun a ha _ => hk a ha) hut

/-- A channel for a granted address is delivered exactly when `ListenTCP` has come to register it;
before that it is rejected, as is one whose addresses cannot be read. -/
theorem forward_delivers_iff (hn : s.entry laddr = none) (hg : laddr ∉ s.granted)
    (hcall : call.laddr N = some laddr) (h : exec (step N) s (.grant call :: as) = some t)
    (hk : ∀ a ∈ as, Keeps N laddr a) (hs : t.step N (.forward ch) = some t') :
    (∀ raddr, ch.addrs N = .ok (laddr, raddr) →
      ((∃ e, t.entry laddr = some e ∧ Delivers N e raddr t') ↔ laddr ∉ t.granted) ∧
      (laddr ∈ t.granted →
        t'.results = t.results ++ [.rejected .prohibited "no forward for address"])) ∧
    ∀ message, ch.addrs N = .error message →
      t'.results = t.results ++ [.rejected .connectionFailed message] := by
  refine ⟨fun raddr hok => ?_, fun message he => ?_⟩
  · simp only [step, hok] at hs
    obtain ⟨-, hs⟩ := ite_none_right_eq_some.mp hs
    obtain ⟨hl, hc⟩ | ⟨hl, hc⟩ := registers_of_grant hn hg hcall h hk
    · have hm : laddr ∈ t.granted := count_pos_iff.mp (hc ▸ Nat.one_pos)
      rw [hl] at hs
      cases hs
      exact ⟨iff_of_false (fun ⟨_, he, _⟩ => by cases hl.symm.trans he) (not_not_intro hm),
        fun _ => rfl⟩
    · obtain ⟨e, he⟩ := ne_none_iff_exists'.mp hl
      have hm : laddr ∉ t.granted := count_eq_zero.mp hc
      rw [he] at hs
      cases hs
      exact ⟨iff_of_true ⟨e, he, delivers_of_sending rfl⟩ hm, fun h => absurd h hm⟩
  · simp only [step, he] at hs
    cases hs
    rfl

theorem forward_delivers_listening :
    ∃ s s' e, exec (step tenNet) new [.grant listenCall, .add listening] = some s ∧
      s.step tenNet (.forward opened) = some s' ∧ s.entry listening = some e ∧
      Delivers tenNet e origin s' := by
  let s : Forwards := ⟨[(listening, 0)], [.empty], none, [], [], false⟩
  have h : exec (step tenNet) new [.grant listenCall, .add listening] = some s := by
    decide +kernel
  have haddrs : opened.addrs tenNet = .ok (listening, origin) := by decide +kernel
  have hs : s.step tenNet (.forward opened) =
      some { s with sending := some ((listening, 0), origin) } := by
    decide +kernel
  have hcall : listenCall.laddr tenNet = some listening := by decide +kernel
  have hiff := forward_delivers_iff rfl not_mem_nil hcall h (by simp [Keeps]) hs
  obtain ⟨e, he, hdelivers⟩ := (hiff.1 origin haddrs).1.mpr not_mem_nil
  exact ⟨s, _, e, h, hs, he, hdelivers⟩

/-- The channel is opened before `ListenTCP` has registered the address it was granted. -/
theorem forward_rejected :
    ∃ s, exec (step tenNet) new [.grant listenCall, .forward opened] = some s ∧
      s.results = [.rejected .prohibited "no forward for address"] ∧ listening ∈ s.granted := by
  have h : exec (step tenNet) new [.grant listenCall, .forward opened] = some { new with
      granted := [listening], results := [.rejected .prohibited "no forward for address"] } := by
    decide +kernel
  exact ⟨_, h, rfl, mem_cons_self⟩

end Forwards

end XCryptoSsh
