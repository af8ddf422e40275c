import XCryptoSsh.Channel
import XCryptoSsh.HandshakeOrder

namespace XCryptoSsh
set_option autoImplicit true

open Go (Bytes)
open Machine List Prod Channel

namespace HandshakeTransport

variable {t : HandshakeTransport}

/-- A packet that is new in `pendingPackets`, or a write that is new in `sent`. -/
inductive Added where
  | pending (p : Packet)
  | sent (w : ConnWrite)
  deriving DecidableEq

/-- What a step of the `i`-th `writePacket` call adds to the queue and gives to the connection. -/
def added (t : HandshakeTransport) (i : Nat) (a : Action) : List Added :=
  match a, t.step a with
  | .writer j _, some t' =>
    if j = i then (t'.pendingPackets.drop t.pendingPackets.length).map .pending ++
      (t'.sent.drop t.sent.length).map .sent
    else []
  | _, _ => []

/-- All that a step can do to one `writePacket` call, with what becomes of the packet. -/
inductive CallStep : Option Writer → List Added → Option Writer → Prop where
  | stay (w) : CallStep w [] w
  | call (p) : CallStep none [] (some ⟨p, .lock⟩)
  | reject (p e) : CallStep none [] (some ⟨p, .done (some e)⟩)
  | lock : CallStep (some ⟨p, .lock⟩) [] (some ⟨p, .check⟩)
  | refuse : CallStep (some ⟨p, .check⟩) [] (some ⟨p, .unlock (some e)⟩)
  | count : CallStep (some ⟨p, .check⟩) [] (some ⟨p, .push⟩)
  | queue : CallStep (some ⟨p, .check⟩) [.pending p] (some ⟨p, .unlock none⟩)
  | push (r) : CallStep (some ⟨p, .push⟩) [.sent ⟨.app, p, r⟩] (some ⟨p, .unlock none⟩)
  | unlock : CallStep (some ⟨p, .unlock r⟩) [] (some ⟨p, .done r⟩)

theorem callStep_writer {i j : Nat} (hs : t.step (.writer j r) = some t')
    (hw : WriterStep t j r t') :
    CallStep t.writers[i]? (t.added i (.writer j r)) t'.writers[i]? := by
  simp only [added, hs]
  by_cases hj : j = i
  · subst hj
    rw [if_pos rfl]
    cases hw with
    | lock hw =>
      simp only [hw, setWriter, setPc_self hw, drop_length, map_nil, append_nil]
      exact .lock
    | refuse hw =>
      simp only [hw, setWriter, setPc_self hw, drop_length, map_nil, append_nil]
      exact .refuse
    | count hw =>
      simp only [hw, setWriter, setPc_self hw, drop_length, map_nil, append_nil]
      exact .count
    | queue hw =>
      simp only [hw, setWriter, setPc_self hw, drop_length, drop_left, map_nil,
        append_nil]
      exact .queue
    | push hw =>
      simp only [hw, setWriter, connWrite, setPc_self hw, drop_length, drop_left,
        map_nil, nil_append]
      exact .push r
    | unlock hw =>
      simp only [hw, setWriter, setPc_self hw, drop_length, map_nil, append_nil]
      exact .unlock
  · have hpc (pc : WriterPc) : (setPc t.writers j pc)[i]? = t.writers[i]? := by
      rw [getElem?_setPc, if_neg hj]
    rw [if_neg hj]
    cases hw <;> simp only [setWriter, connWrite, hpc] <;> exact .stay _

theorem callStep_call (t : HandshakeTransport) (p : Packet) (i : Nat) :
    CallStep t.writers[i]? [] (t.callWritePacket p).writers[i]? := by
  rw [callWritePacket, getElem?_append]
  split
  · exact .stay _
  rename_i hi
  rw [getElem?_eq_none (Nat.le_of_not_lt hi), getElem?_singleton]
  split
  · split
    · exact .reject ..
    split
    · exact .reject ..
    · exact .call p
  · exact .stay _

theorem callStep_of_step (i : Nat) (hs : t.step a = some t') :
    CallStep t.writers[i]? (t.added i a) t'.writers[i]? := by
  cases step_cases hs with
  | writer hw => exact callStep_writer hs hw
  | call => exact callStep_call t _ i
  | kex hs =>
    cases hs with
    | exchange hk hx => cases hx <;> exact .stay _
    | _ => exact .stay _
  | read hs | drain hs => cases hs <;> exact .stay _
  | requestKeyExchange | halt | receive => exact .stay _

/-- A call that is about to return nil has queued its packet or given it to the connection, once;
any other has done nothing. -/
def Decided : Option Writer → List Added → Prop
  | some ⟨p, .unlock none⟩, l | some ⟨p, .done none⟩, l =>
    l = [.pending p] ∨ ∃ r, l = [.sent ⟨.app, p, r⟩]
  | _, l => l = []

theorem CallStep.decided (h : CallStep w v w') (hd : Decided w l) : Decided w' (l ++ v) := by
  cases h with
  | unlock =>
    rw [append_nil]
    rename_i r
    cases r <;> exact hd
  | queue => exact .inl (by rw [show l = [] from hd, nil_append])
  | push r => exact .inr ⟨r, by rw [show l = [] from hd, nil_append]⟩
  | _ => rwa [append_nil]

theorem CallStep.keeps (h : CallStep (some ⟨p, pc⟩) v w) :
    ∃ pc', w = some ⟨p, pc'⟩ ∧ ∀ r, pc = .done r → pc' = .done r := by
  cases h with
  | stay => exact ⟨pc, rfl, fun _ h => h⟩
  | _ => exact ⟨_, rfl, nofun⟩

end HandshakeTransport

/-- A goroutine in `WriteExtended`; `call` is the `writePacket` call it is in, with what follows
when that returns nil, and `sent` are its calls with their data. -/
structure Sender where
  transport : HandshakeTransport
  ch : Channel
  pc : Pc
  call : Option (Nat × Ran)
  sent : List (Nat × Bytes)
  returned : Option Outcome
  deriving DecidableEq, Repr

inductive SenderAct where
  | transport (a : HandshakeTransport.Action)
  | others (ch : Channel)
  | run (choice : Choice)
  | resume
  deriving DecidableEq, Repr

namespace Sender

open HandshakeTransport (Added CallStep callStep_call callStep_of_step Decided)

def start (c : HandshakeConfig) (ch : Channel) (code : Nat) (data : Bytes) : Sender :=
  ⟨.new c, ch, .write code data, none, [], none⟩

/-- The transport's goroutines, the other users of the channel and the writer take turns. -/
def step (encode : ChanMsg → Packet) (s : Sender) : SenderAct → Option Sender
  | .transport a => (s.transport.step a).map fun t => { s with transport := t }
  | .others ch => some { s with ch := ch }
  | .run choice =>
    if s.call = none then (s.ch.run choice s.pc).map fun r => match s.pc, r.effect with
      | .send _ _ todo _, some (.send m) =>
        { s with
          transport := s.transport.callWritePacket (encode m)
          ch := r.ch
          call := some (s.transport.writers.length, r)
          sent := s.sent ++ [(s.transport.writers.length, todo)] }
      | _, _ => { s with ch := r.ch, pc := r.pc, returned := r.returned }
    else none
  | .resume => match s.call, s.pc with
    | some (i, r), .send code n _ _ => match s.transport.writers[i]? with
      | some ⟨_, .done none⟩ => some { s with call := none, pc := r.pc, returned := r.returned }
      | some ⟨_, .done (some e)⟩ =>
        some { s with call := none, pc := .idle, returned := some (.wrote code n (some e)) }
      | _ => none
    | _, _ => none

def addedBy (i : Nat) (s : Sender) : SenderAct → List Added
  | .transport a => s.transport.added i a
  | _ => []

def added (encode : ChanMsg → Packet) (i : Nat) (s : Sender) (as : List SenderAct) : List Added :=
  observed (step encode) (addedBy i) s as

variable {encode : ChanMsg → Packet}

def AllNil (encode : ChanMsg → Packet) (code : Nat) (t : HandshakeTransport)
    (l : List (Nat × Bytes)) : Prop :=
  ∀ x ∈ l, t.writers[x.1]? = some ⟨encode (dataMsg code x.2), .done none⟩

theorem AllNil.step {l : List (Nat × Bytes)} (h : AllNil encode code t l)
    (hs : ∀ i : Nat, ∃ v, CallStep t.writers[i]? v t'.writers[i]?) : AllNil encode code t' l := by
  intro x hx
  obtain ⟨v, hv⟩ := hs x.1
  rw [h x hx] at hv
  obtain ⟨pc', hw, hpc⟩ := hv.keeps
  rw [hw, hpc none rfl]

theorem AllNil.concat {l : List (Nat × Bytes)} {i : Nat} (h : AllNil encode code t l)
    (hw : t.writers[i]? = some ⟨encode (dataMsg code todo), .done none⟩) :
    AllNil encode code t (l ++ [(i, todo)]) := by
  intro x hx
  rcases mem_append.mp hx with hx | hx
  · exact h x hx
  · rw [mem_singleton.mp hx]
    exact hw

/-- How far `WriteExtended` has come: what it has sent and what is left make up its data. -/
inductive Progress (encode : ChanMsg → Packet) (code : Nat) (data : Bytes) : Sender → Prop where
  | write : Progress encode code data ⟨t, c, .write code data, none, [], none⟩
  | reserve {l : List (Nat × Bytes)} (hs : AllNil encode code t l)
      (hd : l.flatMap snd ++ d = data) :
      Progress encode code data
        ⟨t, c, .reserve code (l.flatMap snd).length d, none, l, none⟩
  | send {l : List (Nat × Bytes)} (hs : AllNil encode code t l)
      (hd : l.flatMap snd ++ (todo ++ d) = data) :
      Progress encode code data
        ⟨t, c, .send code (l.flatMap snd).length todo d, none, l, none⟩
  | call {l : List (Nat × Bytes)} {i : Nat} {p : WriterPc} (hs : AllNil encode code t l)
      (hd : l.flatMap snd ++ (todo ++ d) = data)
      (hw : t.writers[i]? = some ⟨encode (dataMsg code todo), p⟩)
      (hr : ∃ c' : Channel, r =
        { c'.writeLoop code ((l.flatMap snd).length + todo.length) d with effect := e }) :
      Progress encode code data
        ⟨t, c, .send code (l.flatMap snd).length todo d, some (i, r), l ++ [(i, todo)], none⟩
  | failed (e : Err) : Progress encode code data
      ⟨t, c, .idle, none, l, some (.wrote code n (some e))⟩
  | wrote {l : List (Nat × Bytes)} (hs : AllNil encode code t l) (hd : l.flatMap snd = data) :
      Progress encode code data ⟨t, c, .idle, none, l, some (.wrote code data.length none)⟩

theorem progress_writeLoop {l : List (Nat × Bytes)} (c' : Channel) (hs : AllNil encode code t l)
    (hd : l.flatMap snd ++ d = data) (hn : n = (l.flatMap snd).length) :
    Progress encode code data ⟨t, c, (c'.writeLoop code n d).pc, none, l,
      (c'.writeLoop code n d).returned⟩ := by
  subst hn
  unfold writeLoop
  split
  · rename_i he
    rw [he, append_nil] at hd
    rw [hd]
    exact .wrote hs hd
  · exact .reserve hs hd

section

variable (h : Progress encode code data s)

include h

theorem Progress.transport (ht : ∀ i : Nat, ∃ v, CallStep s.transport.writers[i]? v t.writers[i]?) :
    Progress encode code data { s with transport := t } := by
  cases h with
  | write => exact .write
  | reserve hs hd => exact .reserve (hs.step ht) hd
  | send hs hd => exact .send (hs.step ht) hd
  | @call _ _ _ _ _ _ _ i _ hs hd hw hr =>
    obtain ⟨v, hv⟩ := ht i
    rw [hw] at hv
    obtain ⟨pc', hw', -⟩ := hv.keeps
    exact .call (hs.step ht) hd hw' hr
  | failed e => exact .failed e
  | wrote hs hd => exact .wrote (hs.step ht) hd

theorem Progress.run
    (hs : Sender.step encode s (.run choice) = some s') : Progress encode code data s' := by
  obtain ⟨hc, hs⟩ := Option.ite_none_right_eq_some.mp hs
  obtain ⟨r, hr, rfl⟩ := Option.map_eq_some_iff.mp hs
  cases h with
  | write =>
    simp only [run, Option.some.injEq] at hr
    subst hr
    dsimp only
    split
    · exact .failed _
    split
    · exact .failed _
    · exact progress_writeLoop _ nofun rfl rfl
  | reserve hnil hd =>
    simp only [run] at hr
    split at hr
    · cases hr
    · cases hr
      exact .failed _
    · cases hr
      exact .send hnil (by rw [take_append_drop, hd])
  | @send t todo d c l hnil hd =>
    simp only [run, sending, Option.some.injEq] at hr
    cases hw : c.writePacket (dataMsg code todo) with
    | error e =>
      rw [hw] at hr
      subst hr
      exact .failed e
    | ok c' =>
      rw [hw] at hr
      subst hr
      exact .call (hnil.step fun i => ⟨_, callStep_call t _ i⟩) hd getElem?_concat_length
        ⟨c', rfl⟩
  | failed => cases hr
  | wrote => cases hr
  | call => cases hc

theorem Progress.resume
    (hs : Sender.step encode s .resume = some s') : Progress encode code data s' := by
  cases h with
  | @call t todo d r e c l i p hnil hd hw hr =>
    obtain ⟨c', rfl⟩ := hr
    simp only [Sender.step, hw] at hs
    split at hs
    · rename_i hp
      cases hs
      refine progress_writeLoop c' (hnil.concat (hw.trans ?_)) ?_ ?_
      · rw [Option.some.injEq, Writer.mk.injEq] at hp
        rw [hp.2]
      · rw [flatMap_append, flatMap_singleton, append_assoc, hd]
      · rw [flatMap_append, flatMap_singleton, length_append]
    · cases hs
      exact .failed _
    · cases hs
  | _ => cases hs

theorem Progress.step (hs : Sender.step encode s a = some s') : Progress encode code data s' := by
  cases a with
  | transport a =>
    obtain ⟨t, ht, rfl⟩ := Option.map_eq_some_iff.mp hs
    exact h.transport fun i => ⟨_, callStep_of_step i ht⟩
  | others ch =>
    cases hs
    cases h with
    | write => exact .write
    | reserve hs hd => exact .reserve hs hd
    | send hs hd => exact .send hs hd
    | call hs hd hw hr => exact .call hs hd hw hr
    | failed e => exact .failed e
    | wrote hs hd => exact .wrote hs hd
  | run choice => exact h.run hs
  | resume => exact h.resume hs

end

theorem callStep_step (i : Nat) (hs : step encode s a = some s') :
    CallStep s.transport.writers[i]? (addedBy i s a) s'.transport.writers[i]? := by
  cases a with
  | transport a =>
    obtain ⟨t, ht, rfl⟩ := Option.map_eq_some_iff.mp hs
    exact callStep_of_step i ht
  | others ch =>
    cases hs
    exact .stay _
  | run choice =>
    obtain ⟨-, hs⟩ := Option.ite_none_right_eq_some.mp hs
    obtain ⟨r, hr, rfl⟩ := Option.map_eq_some_iff.mp hs
    change CallStep _ [] _
    split
    · exact callStep_call _ _ i
    · exact .stay _
  | resume =>
    simp only [step] at hs
    split at hs
    · split at hs
      · cases hs
        exact .stay _
      · cases hs
        exact .stay _
      · cases hs
    · cases hs

theorem decided_run (i : Nat) (hd : Decided s.transport.writers[i]? l)
    (h : exec (step encode) s as = some s') :
    Decided s'.transport.writers[i]? (l ++ added encode i s as) := by
  induction as generalizing s l with
  | nil =>
    cases h
    rwa [added, observed, append_nil]
  | cons a as ih =>
    obtain ⟨u, hu, hus⟩ := exec_cons_some h
    rw [added, observed, hu, Option.elim_some, ← append_assoc]
    exact ih ((callStep_step i hu).decided hd) hus

/-- A `writePacket` call that returns nil has queued its packet or passed it on without error
exactly when the connection gave no error for it; and `WriteExtended` succeeds when all its calls
returned nil. -/
theorem accepted_iff (c : HandshakeConfig) (ch : Channel)
    (h : exec (step encode) (start c ch code data) as = some s) :
    (∀ (i : Nat) p, s.transport.writers[i]? = some ⟨p, .done none⟩ →
      let l := added encode i (start c ch code data) as
      (.pending p ∈ l ∨ .sent ⟨.app, p, none⟩ ∈ l ↔ ∀ e, .sent ⟨.app, p, some e⟩ ∉ l)) ∧
    ∀ n, s.returned = some (.wrote code n none) →
      n = data.length ∧ s.sent.flatMap snd = data ∧ AllNil encode code s.transport s.sent := by
  constructor
  · intro i p hw
    have h₀ : Decided (start c ch code data).transport.writers[i]? [] := rfl
    have hd := decided_run i h₀ h
    rw [hw] at hd
    rw [nil_append] at hd
    dsimp only
    obtain hl | ⟨r, hl⟩ := hd
    · simp [hl]
    · rw [hl]
      cases r <;> simp
  · intro n hn
    have hp : Progress encode code data s :=
      run_invariant (G := fun _ _ => True) (fun _ _ _ hp _ hs => hp.step hs) .write
        (along_of_forall fun _ _ _ => trivial) h
    cases hp with
    | wrote hs hd =>
      cases hn
      exact ⟨rfl, hd, hs⟩
    | _ => cases hn

def writer : Sender :=
  start ⟨0, false⟩ (Channel.handleChannelOpen 0 ⟨1, 10, 10⟩).accept.1 0 [7]

/-- One byte is written, and the connection answers `r` to the packet that carries it. -/
def writeSchedule (r : Option Err) : List SenderAct :=
  [.run .comm, .run .comm, .run .comm, .transport (.writer 0 none), .transport (.writer 0 none),
    .transport (.writer 0 r), .transport (.writer 0 none), .resume]

theorem accepted_iff_written :
    ∃ s, exec (step fun _ => ⟨94, []⟩) writer (writeSchedule none) = some s ∧
      s.returned = some (.wrote 0 1 none) ∧ s.sent.flatMap snd = [7] ∧
      (.pending ⟨94, []⟩ ∈ added (fun _ => ⟨94, []⟩) 0 writer (writeSchedule none) ∨
        .sent ⟨.app, ⟨94, []⟩, none⟩ ∈ added (fun _ => ⟨94, []⟩) 0 writer
          (writeSchedule none)) := by
  have h : exec (step fun _ => ⟨94, []⟩) writer (writeSchedule none) = some _ := rfl
  refine ⟨_, h, rfl, ((accepted_iff _ _ h).2 1 rfl).2.1,
    ((accepted_iff _ _ h).1 0 ⟨94, []⟩ rfl).mpr ?_⟩
  change ∀ e, .sent ⟨.app, ⟨94, []⟩, some e⟩ ∉ [Added.sent ⟨.app, ⟨94, []⟩, none⟩]
  simp

/-- The connection refuses the packet, which is nowhere else, and both calls report success. -/
theorem refused_with_success :
    ∃ s, exec (step fun _ => ⟨94, []⟩) writer (writeSchedule (some .eof)) = some s ∧
      s.transport.writers[0]? = some ⟨⟨94, []⟩, .done none⟩ ∧
      s.returned = some (.wrote 0 1 none) ∧ s.sent = [(0, [7])] ∧
      s.transport.pendingPackets = [] ∧ s.transport.sent = [⟨.app, ⟨94, []⟩, some .eof⟩] ∧
      added (fun _ => ⟨94, []⟩) 0 writer (writeSchedule (some .eof)) =
        [.sent ⟨.app, ⟨94, []⟩, some .eof⟩] :=
  ⟨_, rfl, rfl, rfl, rfl, rfl, rfl, rfl⟩

end Sender

end XCryptoSsh
