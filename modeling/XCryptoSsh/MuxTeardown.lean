import XCryptoSsh.HandshakeSteps
import XCryptoSsh.MuxChannels

namespace XCryptoSsh
open Machine List Channel HandshakeTransport MuxPc
set_option autoImplicit true

def ReadPc.stopped : ReadPc → Bool
  | .record | .closeStart | .returned => true
  | _ => false

namespace HandshakeTransport

variable {t t' : HandshakeTransport}

/-- `readPacket`; `stop` chooses the case for the stop of the Halter or of the context. -/
def readPacket (t : HandshakeTransport) (stop ctxDone : Bool) :
    Option (Except Err Packet × HandshakeTransport) :=
  if stop then if t.stop || ctxDone then some (.error .eof, t) else none
  else match t.incoming with
    | p :: rest => some (.ok p, { t with incoming := rest })
    | [] => if t.incomingClosed then t.readError.map fun e => (.error e, t) else none

structure Reads (t : HandshakeTransport) : Prop where
  stopped : t.incomingClosed = true → t.reader.stopped = true
  error : t.incomingClosed = true → t.readError ≠ none

theorem reads_new (c : HandshakeConfig) : (new c).Reads :=
  ⟨nofun, nofun⟩

structure SameReader (t t' : HandshakeTransport) : Prop where
  incoming : t'.incoming = t.incoming
  closed : t'.incomingClosed = t.incomingClosed
  error : t'.readError = t.readError
  reader : t'.reader = t.reader

theorem step_sameReader (h : t.step a = some t') (ha : ∀ c, a ≠ .read c) (hr : a ≠ .receive) :
    t.SameReader t' := by
  cases step_cases h with
  | call | requestKeyExchange | halt => exact ⟨rfl, rfl, rfl, rfl⟩
  | writer hs | drain hs => cases hs <;> exact ⟨rfl, rfl, rfl, rfl⟩
  | kex hs =>
    cases hs with
    | exchange hk hx => cases hx <;> exact ⟨rfl, rfl, rfl, rfl⟩
    | _ => exact ⟨rfl, rfl, rfl, rfl⟩
  | read => exact absurd rfl (ha _)
  | receive => exact absurd rfl hr

theorem ReadStep.of_stopped (h : ReadStep t c t') (hs : t.reader.stopped = true) :
    t'.incoming = t.incoming ∧ t'.incomingClosed = t.incomingClosed ∧
      t'.readError = t.readError ∧ t'.reader.stopped = true := by
  cases h with
  | record hr hmu hw | closeStart hr => exact ⟨rfl, rfl, rfl, rfl⟩
  | got hr | offer hr hs' | deliver hr hl | fail hr | read hr | readFail hr | offerStop hr hs'
  | awaitFail hr hd | awaitOk hr hd | awaitStop hr hs' | deliverStop hr hs' =>
    rw [hr] at hs; cases hs

theorem Reads.step (hi : t.Reads) (h : t.step a = some t') : t'.Reads := by
  by_cases hr : a = .receive
  · subst hr
    cases step_cases h
    exact ⟨hi.stopped, hi.error⟩
  · by_cases ha : ∃ c, a = .read c
    · obtain ⟨c, rfl⟩ := ha
      have hs := stepRead_cases h
      cases hc : t.incomingClosed with
      | true =>
        obtain ⟨-, h₁, h₂, h₃⟩ := hs.of_stopped (hi.stopped hc)
        exact ⟨fun _ => h₃, fun _ => h₂ ▸ hi.error hc⟩
      | false =>
        cases hs with
        | fail hr => exact ⟨fun _ => rfl, fun _ => by simp⟩
        | _ => exact ⟨fun hn => absurd (hc.symm.trans hn) (by simp),
            fun hn => absurd (hc.symm.trans hn) (by simp)⟩
    · have hs := step_sameReader h (fun c hc => ha ⟨c, hc⟩) hr
      exact ⟨fun hc => hs.reader ▸ hi.stopped (hs.closed ▸ hc),
        fun hc => hs.error ▸ hi.error (hs.closed ▸ hc)⟩

end HandshakeTransport

/-- A mux and the transport it runs on. What the mux sends is not followed into the transport. -/
structure Stack (ι : Type) where
  t : HandshakeTransport
  mux : Mux ι

namespace Stack

/-- `read` is the call of `readPacket` in `onePacket`. -/
inductive Act (ι : Type) where
  | transport (a : HandshakeTransport.Action)
  | mux (a : Mux.Act ι)
  | read (stop : Bool)
  deriving DecidableEq, Repr

variable {ι : Type} [Fintype ι] [DecidableEq ι] (decode : Packet → MuxMsg)

/-- A step of a stack whose mux takes packets apart with `decode`. -/
def step (s : Stack ι) : Act ι → Option (Stack ι)
  | .transport .receive => none
  | .transport a => (s.t.step a).map fun t => { s with t := t }
  | .mux (.packet _) | .mux (.readError _) => none
  | .mux a => (s.mux.step a).map fun (m, _) => { s with mux := m }
  | .read stop => (s.t.readPacket stop s.mux.ctxDone).bind fun (r, t) =>
      let a := match r with
        | .ok p => .packet (decode p)
        | .error e => .readError e
      (s.mux.step a).map fun (m, _) => ⟨t, m⟩

inductive Steps (s : Stack ι) : Act ι → Stack ι → Prop where
  | transport {t' : HandshakeTransport} (ha : a ≠ .receive) (h : s.t.step a = some t') :
      Steps s (.transport a) { s with t := t' }
  | mux (ha : ∀ p, a ≠ .packet p) (ha' : ∀ e, a ≠ .readError e) (h : s.mux.Steps a m out) :
      Steps s (.mux a) { s with mux := m }
  | packet (hp : s.mux.pc = .top) (hi : s.t.incoming = p :: ps) (h : s.mux.Reads (decode p) m) :
      Steps s (.read false) ⟨{ s.t with incoming := ps }, m⟩
  | readError (hp : s.mux.pc = .top) (hi : s.t.incoming = []) (hc : s.t.incomingClosed = true)
      (he : s.t.readError = some e) :
      Steps s (.read false) { s with mux := s.mux.goto (.returned (some e)) }
  | readStop (hp : s.mux.pc = .top) :
      Steps s (.read true) { s with mux := s.mux.goto (.returned (some .eof)) }

theorem step_mux {s : Stack ι} (hp : ∀ p, a ≠ .packet p) (he : ∀ e, a ≠ .readError e) :
    s.step decode (.mux a) = (s.mux.step a).map fun r => { s with mux := r.1 } := by
  cases a <;> first | rfl | exact absurd rfl (hp _) | exact absurd rfl (he _)

theorem step_transport {s : Stack ι} (ha : a ≠ .receive) :
    s.step decode (.transport a) = (s.t.step a).map fun t => { s with t := t } := by
  cases a <;> first | rfl | exact absurd rfl ha

theorem step_cases {s s' : Stack ι} (h : s.step decode a = some s') : Steps decode s a s' := by
  cases a with
  | transport a =>
    by_cases ha : a = .receive
    · subst ha
      cases h
    rw [step_transport decode ha] at h
    obtain ⟨t, ht, rfl⟩ := Option.map_eq_some_iff.mp h
    exact .transport ha ht
  | mux a =>
    obtain ⟨hp, he⟩ : (∀ p, a ≠ .packet p) ∧ ∀ e, a ≠ .readError e := by
      cases a with
      | packet | readError => cases h
      | _ => exact ⟨by simp, by simp⟩
    rw [step_mux decode hp he] at h
    obtain ⟨⟨m, out⟩, hm, rfl⟩ := Option.map_eq_some_iff.mp h
    exact .mux hp he (Mux.step_cases hm)
  | read stop =>
    obtain ⟨⟨r, t⟩, hr, h⟩ := Option.bind_eq_some_iff.mp h
    obtain ⟨⟨m, out⟩, hm, h⟩ := Option.map_eq_some_iff.mp h
    cases h
    cases stop with
    | true =>
      simp only [readPacket, if_true, Option.ite_none_right_eq_some,
        Option.some.injEq] at hr
      obtain ⟨-, hr⟩ := hr
      cases hr
      obtain ⟨hp, ⟨⟩⟩ := of_guard hm
      exact .readStop hp
    | false =>
      simp only [readPacket, Bool.false_eq_true, if_false] at hr
      split at hr
      · rename_i p ps hi
        cases hr
        obtain ⟨hp, ⟨⟩⟩ := of_guard hm
        exact .packet hp hi (s.mux.onePacket_cases (decode p))
      rename_i hi
      obtain ⟨hc, hr⟩ := Option.ite_none_right_eq_some.mp hr
      obtain ⟨e, he, hr⟩ := Option.map_eq_some_iff.mp hr
      cases hr
      obtain ⟨hp, ⟨⟩⟩ := of_guard hm
      exact .readError hp hi hc he

end Stack

def Op.cost : Op → Nat
  | .debit .. => 2
  | _ => 1

theorem Op.one_le_cost (op : Op) : 1 ≤ op.cost := by
  unfold cost
  split <;> omega

theorem Op.cost_handlePacket (m : ChanMsg) : weigh cost (handlePacket m) ≤ 10 := by
  cases m <;> simp [handlePacket, close, cost]

theorem Performs.cost (h : Performs c choice op p) (ops : List Op) :
    Op.weigh Op.cost (p.rest ops) + 1 ≤ Op.weigh Op.cost (op :: ops) := by
  have hop := op.one_le_cost
  rw [Op.weigh_cons]
  obtain ⟨-, hr⟩ | hr | ⟨⟨y, n, b, rfl⟩, x, d, hr⟩ := h.rest_cases ops
  · rw [hr, Op.weigh_nil]
    omega
  · rw [hr]
    omega
  rw [hr, Op.weigh_cons]
  simp only [Op.cost]
  omega

namespace Mux

variable {ι : Type} {m m' : Mux ι} {e e' : Endpoint ι} {k : Nat}

def cost (m : Mux ι) (k : Nat) : Nat :=
  (m.chans[k]?.map fun e => Op.weigh Op.cost e.loop).getD 0

theorem cost_eq (he : m.chans[k]? = some e) : m.cost k = Op.weigh Op.cost e.loop := by
  simp [cost, he]

def leaveCost (m : Mux ι) : Nat := 10 * m.chanList.size + 6

end Mux

/-- A bound on the steps of a packet loop that finds `n` packets and then an error, from what it
takes to leave and what is left to do in each channel. -/
def MuxPc.rank (leave : Nat) (cost : Nat → Nat) (n : Nat) : MuxPc → Nat
  | .top => 24 * (n + 1) + leave
  | .refuse _ | .offer _ | .request _ | .response _ => 24 * (n + 1) + leave + 2
  | .handle k => 24 * (n + 1) + leave + 2 + cost k
  | .returned none => 24 * (n + 1) + leave + 1
  | .returned (some e) => if e.isTimeout then 24 * (n + 1) + leave + 1 else leave + 1
  | .drop _ ks => 10 * ks.length + 4
  | .close _ k ks => 10 * ks.length + 5 + cost k
  | .closeConn _ => 2
  | .setErr _ => 1
  | .done | .panicked _ => 0

def MuxPc.readsLeft (n : Nat) : MuxPc → Nat
  | .returned (some e) => if e.isTimeout then n + 1 else 0
  | pc => if pc.looping then n + 1 else 0

theorem MuxPc.readsLeft_le (pc : MuxPc) (n : Nat) : pc.readsLeft n ≤ n + 1 := by
  unfold readsLeft
  split <;> split <;> omega

theorem MuxPc.rank_returned (r : Option Err) (leave : Nat) (cost : Nat → Nat) (n : Nat) :
    (MuxPc.returned r).rank leave cost n ≤ 24 * (n + 1) + leave + 1 := by
  cases r with
  | none => exact Nat.le_refl _
  | some e =>
    simp only [rank]
    split <;> omega

theorem MuxPc.rank_mono (pc : MuxPc) {leave leave' : Nat} (h : leave' ≤ leave + d)
    (cost : Nat → Nat) (n : Nat) : pc.rank leave' cost n ≤ pc.rank leave cost n + d := by
  unfold rank
  split <;> (try split) <;> omega

namespace Mux

variable {ι : Type} {m m' : Mux ι} {e e' : Endpoint ι} {k : Nat}

def rank (m : Mux ι) (n : Nat) : Nat := m.pc.rank m.leaveCost m.cost n

@[simp] theorem pc_goto (m : Mux ι) (q : MuxPc) : (m.goto q).pc = q := rfl
@[simp] theorem leaveCost_goto (m : Mux ι) (q : MuxPc) : (m.goto q).leaveCost = m.leaveCost := rfl
@[simp] theorem cost_goto (m : Mux ι) (q : MuxPc) : (m.goto q).cost = m.cost := rfl

theorem rank_congr (hp : m'.pc = m.pc) (hl : m'.leaveCost ≤ m.leaveCost + d)
    (hc : ∀ k, m'.cost k = m.cost k) (n : Nat) : m'.rank n ≤ m.rank n + d := by
  rw [rank, rank, hp, show m'.cost = m.cost from funext hc]
  exact m.pc.rank_mono hl m.cost n

theorem cost_setChan (he : m.chans[k]? = some e) (hl : e'.loop = e.loop) (j : Nat) :
    (m.setChan k e').cost j = m.cost j := by
  unfold cost
  rw [show (m.setChan k e').chans[j]? = _ from getElem?_set he e' j]
  split
  · rename_i hj
    subst hj
    simp [he, hl]
  · rfl

theorem cost_newChannel (ch : Nat → Channel) (j : Nat) : (m.newChannel ch).cost j = m.cost j := by
  unfold cost
  change ((m.chans ++ [_])[j]?.map _).getD 0 = _
  obtain hj | hj := Nat.lt_or_ge j m.chans.length
  · rw [getElem?_append_left hj]
  · rw [getElem?_append_right hj, getElem?_eq_none hj]
    cases hz : j - m.chans.length <;> rfl

theorem leaveCost_newChannel (ch : Nat → Channel) :
    (m.newChannel ch).leaveCost ≤ m.leaveCost + 10 := by
  have := m.chanList.size_add_le m.chans.length
  unfold leaveCost
  change 10 * (m.chanList.add _).2.size + 6 ≤ _
  omega

theorem Sound.rank_run [DecidableEq ι] (h : m.Sound) (hp : m.pc.running = some k)
    (he : m.chans[k]? = some e) (hs : e.Steps (.loop c) e' eff) (n : Nat) :
    ((m.setChan k e').absorb eff).rank n + 1 ≤ m.rank n ∧
      ((m.setChan k e').absorb eff).pc.readsLeft n ≤ m.pc.readsLeft n := by
  cases hs with
  | @loop op ops p choice hl hpf =>
    have hcost := hpf.cost ops
    have hk : m.cost k = Op.weigh Op.cost (op :: ops) := hl ▸ cost_eq he
    have hk' : (m.setChan k (e.performed p ops)).cost k = Op.weigh Op.cost (p.rest ops) :=
      cost_eq (m := m.setChan k (e.performed p ops)) ((getElem?_set he _ k).trans (if_pos rfl))
    -- the channel goes on, and perhaps it leaves the list
    have hstay : ∀ l : ChanList, l.size ≤ m.chanList.size →
        rank { m.setChan k (e.performed p ops) with chanList := l } n + 1 ≤ m.rank n := by
      intro l hsize
      have hleave : 10 * l.size + 6 ≤ m.leaveCost := by
        unfold leaveCost
        omega
      change m.pc.rank (10 * l.size + 6) (m.setChan k (e.performed p ops)).cost n + 1 ≤
        m.pc.rank m.leaveCost m.cost n
      cases hpc : m.pc with
      | handle j | close x j ks =>
        rw [hpc] at hp
        cases hp
        simp only [MuxPc.rank, hk', hk]
        omega
      | _ =>
        rw [hpc] at hp
        cases hp
    obtain heff | heff | ⟨rfl, heff⟩ | ⟨f, hf, heff⟩ := hpf.effect_cases
    iterate 2
      · rw [heff]
        exact ⟨hstay m.chanList (Nat.le_refl _), Nat.le_refl _⟩
    · rw [heff]
      exact ⟨hstay _ (m.chanList.size_remove_le _), Nat.le_refl _⟩
    rw [heff]
    cases f with
    | panic text => exact absurd hf ((h.chan k e he).tame.no_panic hl _ text)
    | err x =>
      cases hpc : m.pc with
      | handle j =>
        have hr := rank_returned (some x) m.leaveCost
          (m.setChan k (e.performed p ops)).cost n
        refine ⟨?_, (MuxPc.returned (some x)).readsLeft_le n⟩
        change (MuxPc.returned (some x)).rank m.leaveCost
          (m.setChan k (e.performed p ops)).cost n + 1 ≤ m.pc.rank m.leaveCost m.cost n
        rw [hpc]
        simp only [MuxPc.rank] at hr ⊢
        omega
      | close y j ks =>
        rw [hpc] at hp
        cases hp
        have hsuf := (h.chan k e he).closing y ks hpc
        rw [hl] at hsuf
        have hop := hsuf.subset mem_cons_self
        exact absurd hf (Op.not_err_of_close (.tail _ (.tail _ hop)) _ _ x)
      | _ =>
        rw [hpc] at hp
        cases hp

theorem Sound.rank_loop [Fintype ι] [DecidableEq ι] (h : m.Sound)
    (hs : LoopStep m choice m' out) (n : Nat) :
    m'.rank n + 1 ≤ m.rank n ∧ m'.pc.readsLeft n ≤ m.pc.readsLeft n := by
  have hreturned : ∀ r, 24 * (n + 1) + m.leaveCost + 2 ≤ m.rank n →
      m.pc.readsLeft n = n + 1 → (m.goto (.returned r)).rank n + 1 ≤ m.rank n ∧
        (m.goto (.returned r)).pc.readsLeft n ≤ m.pc.readsLeft n := by
    intro r hr hn
    have := rank_returned r m.leaveCost m.cost n
    refine ⟨?_, hn ▸ readsLeft_le _ n⟩
    change (MuxPc.returned r).rank m.leaveCost m.cost n + 1 ≤ _
    omega
  cases hs with
  | run hp he hc hs => exact h.rank_run hp he (Endpoint.step_cases hs) n
  | stopped hp hs =>
    cases hpc : m.pc <;> rw [hpc] at hp <;> cases hp
    all_goals
      rw [← hpc]
      refine hreturned _ ?_ (by rw [hpc]; rfl)
      rw [rank, hpc]
      exact Nat.le_refl _
  | refuse hp ho ho' =>
    exact hreturned _ (by rw [rank, hp]; exact Nat.le_refl _) (by rw [hp]; rfl)
  | offer hp hl | request hp hl | response hp hl =>
    exact hreturned none (by rw [rank, hp]; exact Nat.le_refl _) (by rw [hp]; rfl)
  | handled hp he hl =>
    refine hreturned none ?_ (by rw [hp]; rfl)
    rw [rank, hp]
    exact Nat.le_add_right _ _
  | closed hp he hl =>
    rw [rank, rank, hp]
    exact ⟨by simp only [pc_goto, MuxPc.rank]; omega, Nat.le_refl _⟩
  | @again r choice hp hr =>
    rw [rank, rank, hp]
    cases r with
    | none => exact ⟨Nat.le_refl _, Nat.le_refl _⟩
    | some e =>
      have ht := hr e rfl
      simp only [pc_goto, leaveCost_goto, MuxPc.rank, MuxPc.readsLeft, ht, if_true, MuxPc.looping]
      exact ⟨Nat.le_refl _, Nat.le_refl _⟩
  | @leave cause choice hp ht =>
    rw [rank, rank, hp]
    simp only [MuxPc.rank, MuxPc.readsLeft, ht, Bool.false_eq_true, if_false, MuxPc.looping]
    refine ⟨?_, Nat.le_refl _⟩
    change 10 * m.chanList.size + 4 + 1 ≤ 10 * m.chanList.size + 6 + 1
    omega
  | @drop cause j ks e choice hp he =>
    have hc : (m.setChan j { e with loop := Op.close }).cost j = 8 :=
      cost_eq (m := m.setChan j { e with loop := Op.close })
        ((getElem?_set he _ j).trans (if_pos rfl))
    rw [rank, rank, hp]
    simp only [pc_goto, cost_goto, MuxPc.rank, hc, length_cons]
    exact ⟨by omega, Nat.le_refl _⟩
  | closeQueues hp =>
    rw [rank, rank, hp]
    exact ⟨by simp only [MuxPc.rank]; omega, Nat.le_refl _⟩
  | closeConn hp | setErr hp =>
    rw [rank, rank, hp]
    exact ⟨Nat.le_refl _, Nat.le_refl _⟩

theorem rank_reads (hp : m.pc = .top) (hr : Reads m p m') (n : Nat) :
    m'.rank n + 1 ≤ m.rank (n + 1) ∧ m'.pc.readsLeft n + 1 ≤ m.pc.readsLeft (n + 1) := by
  have hm : m.rank (n + 1) = 24 * (n + 2) + m.leaveCost := by
    rw [rank, hp]
    rfl
  have hreads : m'.pc.readsLeft n + 1 ≤ m.pc.readsLeft (n + 1) := by
    have := m'.pc.readsLeft_le n
    rw [hp]
    change _ ≤ n + 1 + 1
    omega
  refine ⟨?_, hreads⟩
  rw [hm]
  cases hr with
  | @error p e =>
    have := rank_returned (some e) m.leaveCost m.cost n
    change (MuxPc.returned (some e)).rank m.leaveCost m.cost n + 1 ≤ _
    omega
  | refuse | request | response =>
    change 24 * (n + 1) + m.leaveCost + 2 + 1 ≤ _
    omega
  | offer msg hl hu =>
    have := leaveCost_newChannel (m := m) fun id => handleChannelOpen id msg
    change 24 * (n + 1) +
      (m.newChannel fun id => handleChannelOpen id msg).leaveCost + 2 + 1 ≤ _
    omega
  | @handle msg i k hk =>
    have hc : (m.deliver k msg).cost k ≤ 10 := by
      unfold cost
      change ((m.chans.modify k _)[k]?.map _).getD 0 ≤ 10
      rw [getElem?_modify]
      cases m.chans[k]? with
      | none => simp
      | some e => simpa [Endpoint.receive] using Op.cost_handlePacket msg
    change 24 * (n + 1) + m.leaveCost + 2 + (m.deliver k msg).cost k + 1 ≤ _
    omega

/-- The packet loop stands in a `select` on a Go channel that is full. -/
def Blocked (m : Mux ι) : Prop :=
  match m.pc with
  | .offer _ => chanSize ≤ m.incomingChannels.items.length
  | .request _ => chanSize ≤ m.incomingRequests.items.length
  | .response _ => 1 ≤ m.globalResponses.items.length
  | .handle k => ∃ e ops, m.chans[k]? = some e ∧
      ((∃ msg, e.loop = .pushMsg msg :: ops ∧ chanSize ≤ e.ch.msg.items.length) ∨
        ∃ r, e.loop = .pushRequest r :: ops ∧ chanSize ≤ e.ch.incomingRequests.items.length)
  | _ => False

end Mux

theorem Channel.perform_isSome (c : Channel) (op : Op) :
    (∃ p, c.perform .comm op = some p) ∨
      (∃ m, op = .pushMsg m ∧ chanSize ≤ c.msg.items.length) ∨
        ∃ r, op = .pushRequest r ∧ chanSize ≤ c.incomingRequests.items.length := by
  have hpush : ∀ {α : Type} (q : Queue α) (x : α) (store : Queue α → Channel),
      (∃ p, c.selectSend .comm q x store = some p) ∨ chanSize ≤ q.items.length := by
    intro α q x store
    simp only [selectSend, Queue.push]
    cases q.closed with
    | true => exact .inl ⟨_, rfl⟩
    | false =>
      by_cases hl : q.items.length < chanSize
      · simp only [Bool.false_eq_true, if_false, hl, if_true]
        exact .inl ⟨_, rfl⟩
      · exact .inr (Nat.le_of_not_lt hl)
  cases op with
  | pushMsg m => exact (hpush c.msg m _).imp id fun h => .inl ⟨m, rfl, h⟩
  | pushRequest r => exact (hpush c.incomingRequests r _).imp id fun h => .inr ⟨r, rfl, h⟩
  | _ => exact .inl ⟨_, rfl⟩

namespace Mux

variable {ι : Type} [Fintype ι] [DecidableEq ι] {m : Mux ι}

theorem Sound.exists_runChan (h : m.Sound) (hp : m.pc.running = some k) (next : MuxPc) :
    (∃ r, m.runChan k next .comm = some r) ∨
      ∃ e ops, m.chans[k]? = some e ∧
        ((∃ msg, e.loop = .pushMsg msg :: ops ∧ chanSize ≤ e.ch.msg.items.length) ∨
          ∃ r, e.loop = .pushRequest r :: ops ∧
            chanSize ≤ e.ch.incomingRequests.items.length) := by
  obtain ⟨e, he⟩ : ∃ e, m.chans[k]? = some e :=
    ⟨_, getElem?_eq_getElem (h.running k hp)⟩
  cases hl : e.loop with
  | nil => exact .inl ⟨_, by simp only [runChan, he, Option.bind_some, hl, if_true]; rfl⟩
  | cons op ops =>
    obtain ⟨p, hp⟩ | ⟨msg, rfl, hm⟩ | ⟨r, rfl, hm⟩ := e.ch.perform_isSome op
    · have hs : e.step (.loop .comm) = some (e.performed p ops, p.effect) := by
        simp only [Endpoint.step, hl, hp, Option.map_some]
      refine .inl ⟨((m.setChan k (e.performed p ops)).absorb p.effect, outOf k p.effect), ?_⟩
      simp only [runChan, he, Option.bind_some, hl, reduceCtorEq, if_false, chanChoice, hs,
        Option.map_some]
    · exact .inr ⟨e, ops, he, .inl ⟨msg, hl, hm⟩⟩
    · exact .inr ⟨e, ops, he, .inr ⟨r, hl, hm⟩⟩

theorem Sound.exists_loop (h : m.Sound) (hn : m.pc ≠ .top) (hd : m.pc ≠ .done)
    (hp : ∀ text, m.pc ≠ .panicked text) (hb : ¬ m.Blocked) :
    ∃ choice r, m.stepLoop choice = some r := by
  unfold Blocked at hb
  cases hpc : m.pc with
  | top => exact absurd hpc hn
  | done => exact absurd hpc hd
  | panicked text => exact absurd hpc (hp text)
  | refuse i => exact ⟨.wrote none, _, by rw [stepLoop, hpc]⟩
  | offer k | request r | response r =>
    rw [hpc, Nat.not_le] at hb
    exact ⟨.comm, _, by simp only [stepLoop, hpc, selectSend, hb, if_true, Option.map_some]; rfl⟩
  | handle k =>
    rw [hpc] at hb
    obtain ⟨r, hr⟩ | hblock := h.exists_runChan (k := k) (by rw [hpc]; rfl) (.returned none)
    · exact ⟨.comm, r, by rw [stepLoop, hpc]; exact hr⟩
    · exact absurd hblock hb
  | returned r =>
    cases r with
    | none => exact ⟨.comm, _, by rw [stepLoop, hpc]⟩
    | some e =>
      cases ht : e.isTimeout with
      | true => exact ⟨.comm, _, by simp only [stepLoop, hpc, ht, if_true]; rfl⟩
      | false =>
        exact ⟨.comm, _, by simp only [stepLoop, hpc, ht, Bool.false_eq_true, if_false]; rfl⟩
  | drop x ks =>
    cases ks with
    | nil => exact ⟨.comm, _, by rw [stepLoop, hpc]⟩
    | cons k ks =>
      obtain ⟨e, he⟩ : ∃ e, m.chans[k]? = some e :=
        ⟨_, getElem?_eq_getElem (h.todo k (by rw [hpc]; exact mem_cons_self))⟩
      exact ⟨.comm, ((m.setChan k { e with loop := Op.close }).goto (.close x k ks), none),
        by simp only [stepLoop, hpc, he, Option.map_some]⟩
  | close x k ks =>
    obtain ⟨r, hr⟩ | ⟨e, ops, he, hl⟩ := h.exists_runChan (k := k) (by rw [hpc]; rfl) (.drop x ks)
    · exact ⟨.comm, r, by rw [stepLoop, hpc]; exact hr⟩
    -- `close` sends nothing
    have hsuf := (h.chan k e he).closing x ks hpc
    obtain ⟨msg, hl, -⟩ | ⟨r, hl, -⟩ := hl
    iterate 2
      · have hop := hsuf.subset (hl ▸ mem_cons_self)
        simp [Op.close] at hop
  | closeConn x | setErr x => exact ⟨.comm, _, by rw [stepLoop, hpc]⟩

theorem err_of_done {m' : Mux ι} (hs : m.Steps a m' out) (h : m.pc = .done → m.err ≠ none) :
    m'.pc = .done → m'.err ≠ none := by
  cases hs with
  | packet hp hr => cases hr <;> exact nofun
  | readError hp => exact nofun
  | loop hs =>
    cases hs with
    | @run k e choice c e' eff hp he hc hs =>
      have hpc : m.pc ≠ .done := by
        intro hd
        rw [hd] at hp
        cases hp
      intro hd
      unfold absorb at hd
      split at hd
      · exact absurd hd hpc
      · cases hd
      · cases hd
      · exact absurd hd hpc
    | setErr hp => exact fun _ => by simp
    | _ => exact nofun
  | opened hk he hs =>
    rw [absorb_user hs rfl]
    exact h
  | chan ha ho he hs =>
    rw [absorb_user hs ha]
    exact h
  | _ => exact h

end Mux

namespace Stack

variable {ι : Type} [Fintype ι] [DecidableEq ι] {decode : Packet → MuxMsg} {s s' : Stack ι}

def Roomy (s : Stack ι) (_ : Act ι) : Prop := s.mux.chanList.chans.length < 2 ^ 32

structure Ok (s : Stack ι) : Prop where
  reads : s.t.Reads
  sound : s.mux.Sound
  calm : ∀ text, s.mux.pc ≠ .panicked text
  err : s.mux.pc = .done → s.mux.err ≠ none

theorem Steps.mux_cases (h : Steps decode s a s') :
    s'.mux = s.mux ∨ ∃ b out, s.mux.Steps b s'.mux out := by
  cases h with
  | transport ha h => exact .inl rfl
  | mux ha ha' h => exact .inr ⟨_, _, h⟩
  | packet hp hi h => exact .inr ⟨_, _, .packet hp h⟩
  | readError hp hi hc he | readStop hp => exact .inr ⟨_, _, .readError hp⟩

theorem Steps.follows (h : Steps decode s a s') (hs : s.mux.Sound) (hr : Roomy s a)
    (hf : s.mux.Follows k) : s'.mux.Follows k := by
  obtain hm | ⟨b, out, hm⟩ := h.mux_cases
  · exact hm ▸ hf
  · exact hf.step hs hr hm

theorem Ok.step (hi : Ok s) (hr : Roomy s a) (h : Steps decode s a s') : Ok s' := by
  have ht : s'.t.Reads := by
    cases h with
    | transport ha h => exact hi.reads.step h
    | packet hp hi' h => exact ⟨hi.reads.stopped, hi.reads.error⟩
    | _ => exact hi.reads
  obtain hm | ⟨b, out, hm⟩ := h.mux_cases
  · exact ⟨ht, hm ▸ hi.sound, hm ▸ hi.calm, hm ▸ hi.err⟩
  · exact ⟨ht, hi.sound.step hr hm, hi.sound.not_panicked hr hm hi.calm,
      Mux.err_of_done hm hi.err⟩

omit [Fintype ι] [DecidableEq ι] in
theorem Ok.start {t : HandshakeTransport} (ht : t.Reads) : Ok (⟨t, .newMux⟩ : Stack ι) :=
  ⟨ht, Mux.sound_newMux, nofun, nofun⟩

structure Stopped (e : Err) (s : Stack ι) : Prop extends Ok s where
  closed : s.t.incomingClosed = true
  error : s.t.readError = some e

omit [Fintype ι] [DecidableEq ι] in
theorem Stopped.transport (hi : Stopped e s) (ha : a ≠ .receive) (h : s.t.step a = some t') :
    t'.incoming = s.t.incoming ∧ t'.incomingClosed = s.t.incomingClosed ∧
      t'.readError = s.t.readError := by
  by_cases hread : ∃ c, a = .read c
  · obtain ⟨c, rfl⟩ := hread
    obtain ⟨h₁, h₂, h₃, -⟩ :=
      (stepRead_cases h).of_stopped (hi.reads.stopped hi.closed)
    exact ⟨h₁, h₂, h₃⟩
  · have hs := step_sameReader h (fun c hc => hread ⟨c, hc⟩) ha
    exact ⟨hs.incoming, hs.closed, hs.error⟩

theorem Stopped.step (hi : Stopped e s) (hr : Roomy s a) (h : Steps decode s a s') :
    Stopped e s' := by
  have hok := hi.toOk.step hr h
  cases h with
  | transport ha h =>
    obtain ⟨-, h₂, h₃⟩ := hi.transport ha h
    exact ⟨hok, h₂.trans hi.closed, h₃.trans hi.error⟩
  | _ => exact ⟨hok, hi.closed, hi.error⟩

def Act.loops : Act ι → Nat
  | .read _ | .mux (.loop _) => 1
  | _ => 0

def Act.reads : Act ι → Nat
  | .read _ => 1
  | _ => 0

def Act.opens : Act ι → Nat
  | .mux .openChannel => 1
  | _ => 0

def rank (s : Stack ι) : Nat := s.mux.rank s.t.incoming.length

theorem rank_other {m m' : Mux ι} (h : m.Steps a m' out) (hl : ∀ choice, a ≠ .loop choice)
    (hp : ∀ p, a ≠ .packet p) (hx : ∀ e, a ≠ .readError e) (n : Nat) :
    m'.rank n ≤ m.rank n + 10 * (Act.mux a).opens ∧ m'.pc = m.pc := by
  have hsame : ∀ {m₁ : Mux ι}, m₁.pc = m.pc → m₁.leaveCost = m.leaveCost →
      (∀ k, m₁.cost k = m.cost k) →
      m₁.rank n ≤ m.rank n + 10 * (Act.mux a).opens ∧ m₁.pc = m.pc := by
    intro m₁ hp hl hc
    exact ⟨Mux.rank_congr hp (by omega) hc n, hp⟩
  cases h with
  | packet hp' hr => exact absurd rfl (hp _)
  | readError hp' => exact absurd rfl (hx _)
  | loop hs => exact absurd rfl (hl _)
  | openChannel =>
    refine ⟨?_, rfl⟩
    have hl := Mux.leaveCost_newChannel (m := m) openChannel
    change (m.newChannel openChannel).rank n ≤ m.rank n + 10
    have hp : (m.newChannel openChannel).pc = m.pc := rfl
    exact Mux.rank_congr hp hl (Mux.cost_newChannel openChannel) n
  | decide ha hk he hd => exact hsame rfl rfl (Mux.cost_setChan he hd.frame.1)
  | opened hk he hs =>
    rw [Mux.absorb_user hs rfl]
    exact hsame rfl rfl (Mux.cost_setChan (m := m.stopWaiting _) he (hs.frame rfl).1)
  | chan ha ho he hs =>
    rw [Mux.absorb_user hs ha]
    exact hsame rfl rfl (Mux.cost_setChan he (hs.frame ha).1)
  | _ => exact hsame rfl rfl fun _ => rfl

theorem Stopped.rank_step (hi : Stopped e s) (he : e.isTimeout = false)
    (h : Steps decode s a s') :
    a.loops + s'.rank ≤ s.rank + 10 * a.opens ∧
      a.reads + s'.mux.pc.readsLeft s'.t.incoming.length ≤
        s.mux.pc.readsLeft s.t.incoming.length := by
  cases h with
  | @transport a t' ha h =>
    obtain ⟨hin, -, -⟩ := hi.transport ha h
    simp only [rank, hin, Act.loops, Act.reads]
    omega
  | @mux a m out ha ha' h =>
    by_cases hl : ∃ choice, a = .loop choice
    · obtain ⟨choice, rfl⟩ := hl
      cases h with
      | loop hs =>
        obtain ⟨h₁, h₂⟩ := hi.sound.rank_loop hs s.t.incoming.length
        simp only [rank, Act.loops, Act.reads]
        omega
      | decide ha hk he hd => obtain h | ⟨f, h⟩ := ha <;> cases h
    · obtain ⟨h₁, h₂⟩ := rank_other h (fun c hc => hl ⟨c, hc⟩) ha ha' s.t.incoming.length
      have hz : (Act.mux a).loops = 0 := by
        cases a <;> first | rfl | exact absurd ⟨_, rfl⟩ hl
      simp only [rank, hz, h₂, Act.reads]
      omega
  | @packet p ps m hp hin h =>
    obtain ⟨h₁, h₂⟩ := Mux.rank_reads hp h ps.length
    simp only [rank, hin, length_cons, Act.loops, Act.reads]
    omega
  | @readError e' hp hin hc he' =>
    cases hi.error.symm.trans he'
    simp only [rank, Mux.rank, hp, Mux.pc_goto, MuxPc.rank, MuxPc.readsLeft, he, Act.loops,
      Act.reads, Mux.leaveCost_goto, MuxPc.looping, Bool.false_eq_true, if_false, if_true]
    omega
  | readStop hp =>
    simp only [rank, Mux.rank, hp, Mux.pc_goto, MuxPc.rank, MuxPc.readsLeft, Err.isTimeout,
      Act.loops, Act.reads, Mux.leaveCost_goto, MuxPc.looping, Bool.false_eq_true, if_false,
      if_true]
    omega

theorem Stopped.exists_step (hi : Stopped e s) (hd : s.mux.pc ≠ .done) (hb : ¬ s.mux.Blocked) :
    ∃ (a : Act ι) (s' : Stack ι), a.loops = 1 ∧ s.step decode a = some s' := by
  by_cases ht : s.mux.pc = .top
  · refine ⟨.read false, ?_⟩
    cases hin : s.t.incoming with
    | nil =>
      refine ⟨{ s with mux := s.mux.goto (.returned (some e)) }, rfl, ?_⟩
      simp [Stack.step, readPacket, hin, hi.closed, hi.error, Mux.step, ht]
    | cons p ps =>
      refine ⟨⟨{ s.t with incoming := ps }, s.mux.onePacket (decode p)⟩, rfl, ?_⟩
      simp [Stack.step, readPacket, hin, Mux.step, ht]
  · obtain ⟨choice, ⟨m, out⟩, hm⟩ := hi.sound.exists_loop ht hd hi.calm hb
    refine ⟨.mux (.loop choice), { s with mux := m }, rfl, ?_⟩
    rw [step_mux decode (fun _ h => by cases h) (fun _ h => by cases h)]
    simp only [Mux.step, hm, Option.map_some]

theorem ok_run {t : HandshakeTransport} (ht : exec HandshakeTransport.step (.new c) ts = some t)
    (hl : Along (step decode) Roomy (⟨t, .newMux⟩ : Stack ι) as)
    (hs : exec (step decode) ⟨t, .newMux⟩ as = some s) : Ok s := by
  have ht : t.Reads := run_invariant (G := fun _ _ => True)
    (fun t a t' hi _ h => hi.step h) (reads_new c)
    (along_of_forall fun _ _ _ => trivial) ht
  exact run_invariant (fun s a s' hi hr h => hi.step hr (step_cases decode h))
    (Ok.start ht) hl hs

def failing (e : Err) : List HandshakeTransport.Action := [.read (.fail e), .read .go]

def timedOut : Err := .net "read tcp: operation timed out" true

def endingSchedule : List (Act Unit) :=
  .read false :: replicate 14 (.mux (.loop .comm))

instance (s : Stack ι) (a : Act ι) : Decidable (s.Roomy a) := inferInstanceAs (Decidable (_ < _))

end Stack

end XCryptoSsh
