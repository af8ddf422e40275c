import XCryptoSsh.Cipher
import XCryptoSsh.MuxTable

namespace XCryptoSsh
set_option autoImplicit true

open Go (Bytes u32 putUint32)
open Machine List Function

def msgChannelData : UInt8 := 94
def msgChannelExtendedData : UInt8 := 95

namespace Channel

/-- 1 byte message type, 4 bytes remoteId, 4 bytes data length, and 4 bytes for a code above 0. -/
def headerLength (code : Nat) : Nat := if code > 0 then 9 + 4 else 9

/-- The packet that `WriteExtended` builds for a part of its data. -/
def dataPacket (c : Channel) (code : Nat) (todo : Bytes) : Bytes :=
  if code > 0 then
    msgChannelExtendedData :: putUint32 c.remoteId ++ putUint32 code ++
      putUint32 (u32 todo.length) ++
      todo
  else msgChannelData :: putUint32 c.remoteId ++ putUint32 (u32 todo.length) ++ todo

theorem length_dataPacket (c : Channel) (code : Nat) (todo : Bytes) :
    (c.dataPacket code todo).length = headerLength code + todo.length := by
  unfold dataPacket headerLength
  split <;> simp <;> omega

end Channel

theorem Runs.payload (h : Runs c pc r) : r.ch.maxRemotePayload = c.maxRemotePayload ∧
    r.pc.reserved ≤ c.maxRemotePayload ∧ ∀ m ∈ Effect.sends r.effect, m.payloadLength ≤
      pc.reserved := by
  cases h with
  | reserve hs hc hw hk =>
    refine ⟨rfl, ?_, by rintro _ ⟨⟩⟩
    have hspace := hk.trans (minUint32_le_left _ _)
    simp only [Channel.goto, Pc.reserved, length_take]
    omega
  | sendLast h | send h hd =>
    refine ⟨rfl, Nat.zero_le _, ?_⟩
    simp [Effect.sends, Pc.reserved, Channel.dataMsg, ChanMsg.payloadLength]
  | request hp hp' => exact ⟨rfl, (Pc.weights_of_requesting (.inr hp')).1 ▸ Nat.zero_le _,
      by rintro _ ⟨⟩⟩
  | requestSent hp hp' h hm ho =>
    refine ⟨rfl, ?_, ?_⟩
    · exact (Pc.weights_of_requesting hp').1 ▸ Nat.zero_le _
    · intro m h
      rw [mem_singleton.mp h, (ChanMsg.weights_of_requesting hm).1]
      exact Nat.zero_le _
  | adjust h | sendEOF h | sendClose h =>
    exact ⟨rfl, Nat.zero_le _, by simp [Effect.sends, ChanMsg.payloadLength]⟩
  | _ => exact ⟨rfl, Nat.zero_le _, by rintro _ ⟨⟩⟩

def acceptedAtMost (n size : Nat) : Prop :=
  minPacketLength ≤ size → size ≤ 2 ^ 31 → size ≤ n

theorem Performs.maxRemotePayload_le (h : Performs c choice op p) (hc : c.maxRemotePayload ≤ n)
    (ho : ∀ i w size, op = .confirm i w size → acceptedAtMost n size) :
    p.ch.maxRemotePayload ≤ n := by
  cases h with
  | confirm hl hu => exact ho _ _ _ rfl hl hu
  | store => rw [Channel.storeData_eq]; exact hc
  | _ => exact hc

namespace Endpoint

variable {ι : Type} {e e' : Endpoint ι}

/-- Every packet of a channel whose peer takes at most `n` bytes carries at most `n` bytes. -/
structure Sized (n : Nat) (e : Endpoint ι) : Prop where
  payload : e.ch.maxRemotePayload ≤ n
  reserved : ∀ i, (e.gos i).reserved ≤ n
  confirms : ∀ i w size, .confirm i w size ∈ e.loop → acceptedAtMost n size

theorem Sized.start {ch : Channel} (h : ch.maxRemotePayload ≤ n) :
    (Endpoint.start ch false [] : Endpoint ι).Sized n :=
  ⟨h, fun _ => Nat.zero_le n, nofun⟩

theorem Sized.decides (h : e.Sized n) (hd : e.Decides e' msg) : e'.Sized n := by
  cases hd <;> exact ⟨h.payload, h.reserved, h.confirms⟩

theorem Sized.receive (h : e.Sized n)
    (hm : ∀ i w size, msg = .openConfirm i w size → acceptedAtMost n size) :
    (e.receive msg).Sized n := by
  refine ⟨h.payload, h.reserved, ?_⟩
  intro i w size hc
  change _ ∈ Op.handlePacket msg at hc
  cases msg with
  | openConfirm i' w' size' =>
    simp only [Op.handlePacket, mem_cons, reduceCtorEq, Op.confirm.injEq, not_mem_nil,
      or_false, false_or] at hc
    exact hm i w size (by rw [hc.1, hc.2.1, hc.2.2])
  | _ => simp [Op.handlePacket, Op.close] at hc

variable [DecidableEq ι]

theorem reserved_update (h : ∀ i, (e.gos i).reserved ≤ n) (hp : pc.reserved ≤ n) (i j : ι) :
    (update e.gos i pc j).reserved ≤ n := by
  by_cases hj : j = i
  · subst hj
    rwa [update_self]
  · rw [update_of_ne hj]
    exact h j

theorem Sized.step (h : e.Sized n) (hs : e.Steps a e' eff) (ha : ∀ msg, a ≠ .deliver msg) :
    e'.Sized n := by
  cases hs with
  | @call i m ho hi hm =>
    refine ⟨h.payload, ?_, h.confirms⟩
    exact reserved_update h.reserved (m.weights_enter.1 ▸ Nat.zero_le n) i
  | @run i r choice hr =>
    obtain ⟨hc, hp, -⟩ := hr.payload
    refine ⟨hc.trans_le h.payload, ?_, h.confirms⟩
    exact reserved_update h.reserved (hp.trans h.payload) i
  | @loop op ops p choice hl hp =>
    refine ⟨hp.maxRemotePayload_le h.payload ?_, h.reserved, ?_⟩
    · rintro i w size rfl
      exact h.confirms i w size (hl ▸ mem_cons_self)
    intro i w size hc
    obtain hc | ⟨x, d, hc⟩ := hp.mem_of_rest hc
    · exact h.confirms i w size (hl ▸ .tail _ hc)
    · cases hc
  | deliver hl hm => exact absurd rfl (ha _)
  | opened hm ho hd | refused hm ho hd | takeRequest hr | halt =>
    exact ⟨h.payload, h.reserved, h.confirms⟩

theorem Sized.sends (h : e.Sized n) (hs : e.Steps a e' (some (.send msg))) :
    msg.payloadLength ≤ n := by
  generalize heff : some (Effect.send msg) = eff at hs
  cases hs with
  | @run i r choice hr =>
    refine (hr.payload.2.2 msg ?_).trans (h.reserved i)
    rw [← heff]
    exact mem_singleton_self msg
  | @loop op ops p choice hl hp =>
    obtain he | he | ⟨-, he⟩ | ⟨f, -, he⟩ := hp.effect_cases
    · cases heff.trans he
    · cases heff.trans he
      exact Nat.zero_le n
    · cases heff.trans he
    · cases heff.trans he
  | _ => cases heff

theorem exists_step_run [Fintype ι] (hg : e.gos i = pc) (h : e.ch.run choice pc = some r) :
    ∃ e', e.step (.run i choice) = some (e', r.effect) ∧ e'.ch = r.ch ∧ e'.gos i = r.pc := by
  refine ⟨e.ran i r, ?_, rfl, update_self ..⟩
  rw [step, hg, h]
  rfl

theorem writes_all [Fintype ι] (i : ι) (code : Nat) {data : Bytes} (ho : e.opened = true)
    (hi : e.gos = fun _ => .idle) (hd : e.ch.decided = true) (he : e.ch.sentEOF = false)
    (hc : e.ch.sentClose = false) (hs : e.ch.idleStop = false)
    (hw : e.ch.remoteWin = ⟨data.length, false⟩) (hm : e.ch.maxRemotePayload = data.length)
    (hlt : data.length < 2 ^ 32) (hn : data ≠ []) :
    ∃ e₁ e₂ e₃ e₄ : Endpoint ι, e.step (.call i (.write code data)) = some (e₁, none) ∧
      e₁.step (.run i .comm) = some (e₂, none) ∧ e₂.step (.run i .comm) = some (e₃, none) ∧
        e₃.step (.run i .comm) = some (e₄, some (.send (Channel.dataMsg code data))) := by
  have hmay : e.mayCall (.write code data) := by
    intro j
    rw [hi]
    exact nofun
  have hz : data.length ≠ 0 := fun h => hn (length_eq_zero_iff.mp h)
  have hmin : minUint32 e.ch.maxRemotePayload data.length = data.length := by
    rw [hm, minUint32, Go.u32_of_lt hlt, if_neg (Nat.lt_irrefl _)]
  have hres : e.ch.remoteWin.reserve e.ch.idleStop data.length =
      some (data.length, none, ⟨0, false⟩) := by
    rw [hw, hs]
    simp [Window.reserve, hz, Go.subU32]
  have h₁ : e.ch.run .comm (.write code data) = some (e.ch.goto (.reserve code 0 data)) := by
    simp [Channel.run, hd, he, Channel.writeLoop, hn]
  have h₂ : e.ch.run .comm (.reserve code 0 data) =
      some (Channel.goto { e.ch with remoteWin := ⟨0, false⟩ } (.send code 0 data [])) := by
    simp [Channel.run, hmin, hres]
  have h₃ : ∀ {c : Channel}, c.sentClose = false → c.run .comm (.send code 0 data []) = some
      { c.ret (.wrote code (0 + data.length) none) with
        effect := some (.send (Channel.dataMsg code data)) } := by
    intro c hc
    rw [Channel.run, Channel.sending_of_open hc (Channel.dataMsg_ne_close code data)]
    rfl
  obtain ⟨e₁, hs₁, hc₁, hg₁⟩ : ∃ e₁, e.step (.call i (.write code data)) = some (e₁, none) ∧
      e₁.ch = e.ch ∧ e₁.gos i = .write code data :=
    ⟨_, if_pos ⟨ho, by rw [hi], hmay⟩, rfl, update_self ..⟩
  rw [← hc₁] at h₁ h₂ hc
  obtain ⟨e₂, hs₂, hc₂, hg₂⟩ := exists_step_run hg₁ h₁
  have hc₂ : e₂.ch = e₁.ch := hc₂
  rw [← hc₂] at h₂
  obtain ⟨e₃, hs₃, hc₃, hg₃⟩ := exists_step_run hg₂ h₂
  have hclose : e₃.ch.sentClose = false := by rw [hc₃, ← hc, ← hc₂]; rfl
  obtain ⟨e₄, hs₄, -, -⟩ := exists_step_run hg₃ (h₃ hclose)
  exact ⟨e₁, e₂, e₃, e₄, hs₁, hs₂, hs₃, hs₄⟩

end Endpoint

theorem StreamPacketCipher.writePacket_of_lt (h : maxPacket < packet.length) :
    writePacket seqNum packet (c, w) = (.error (.text "ssh: packet too large"), (c, w)) := by
  unfold writePacket
  simp only [bind, Go.Call.bind, Go.Call.failIf, h, if_true, Go.Call.fail]

namespace Mux

variable {ι : Type} [DecidableEq ι] [Fintype ι] {m m' : Mux ι} {e e' : Endpoint ι} {k : Nat}

theorem all_chans_step {P : Endpoint ι → Prop} (h : ∀ e ∈ m.chans, P e) (hs : m.Steps a m' out)
    (hopen : ∀ i, P (.start (.openChannel i) false []))
    (hoffer : ∀ i msg, a = .packet (.channelOpen (.ok msg)) → minPacketLength ≤ msg.maxPacketSize →
      msg.maxPacketSize ≤ 2 ^ 31 → P (.start (.handleChannelOpen i msg) false []))
    (hreceive : ∀ i msg e, a = .packet (.chan i msg) → P e → P (e.receive msg))
    (hclose : ∀ e, P e → P { e with loop := Op.close })
    (hdecide : ∀ e e' msg, e.Decides e' msg → P e → P e')
    (hstep : ∀ e b e' eff, (∀ msg, b ≠ .deliver msg) →
      (b.user = true → ∃ k, a = .chan k b ∧ m.chans[k]? = some e) → e.Steps b e' eff → P e → P e') :
    ∀ e ∈ m'.chans, P e := by
  have hset : ∀ {k e e'}, m.chans[k]? = some e → (P e → P e') → ∀ x ∈ m.chans.set k e', P x := by
    intro k e e' he hP x hx
    obtain hx | rfl := mem_or_eq_of_mem_set hx
    · exact h x hx
    · exact hP (h e (mem_of_getElem? he))
  have hnew : ∀ {ch : Nat → Channel}, (∀ i, P (.start (ch i) false [])) →
      ∀ x ∈ (m.newChannel ch).chans, P x := by
    intro ch hch x hx
    obtain hx | hx := mem_append.mp hx
    · exact h x hx
    · exact mem_singleton.mp hx ▸ hch _
  have habsorb : ∀ {m₁ : Mux ι} {eff}, (∀ e ∈ m₁.chans, P e) →
    ∀ e ∈ (m₁.absorb eff).chans, P e := by
    intro m₁ eff h₁
    unfold absorb
    split <;> exact h₁
  cases hs with
  | packet hp hr =>
    cases hr with
    | offer msg hl hu => exact hnew fun i => hoffer i msg rfl hl hu
    | @handle msg i k hk =>
      intro x hx
      obtain ⟨j, hj⟩ := mem_iff_getElem?.mp hx
      change (m.chans.modify k _)[j]? = _ at hj
      rw [getElem?_modify] at hj
      obtain ⟨e, he, hx⟩ := Option.map_eq_some_iff.mp hj
      split at hx
      · exact hx ▸ hreceive i msg e rfl (h e (mem_of_getElem? he))
      · exact hx ▸ h e (mem_of_getElem? he)
    | _ => exact h
  | loop hs =>
    cases hs with
    | run hp he hc hs =>
      refine habsorb (hset he (hstep _ _ _ _ ?_ (fun hu => ?_) (Endpoint.step_cases hs)))
      · exact fun msg h => by cases h
      · cases hu
    | drop hp he => exact hset he (hclose _)
    | _ => exact h
  | openChannel => exact hnew hopen
  | decide ha hk he hd => exact hset he (hdecide _ _ _ hd)
  | opened hk he hs =>
    refine habsorb (hset he (hstep _ _ _ _ ?_ (fun _ => ⟨_, rfl, he⟩) hs))
    exact fun msg h => by cases h
  | chan ha ho he hs =>
    refine habsorb (hset he (hstep _ _ _ _ ?_ (fun _ => ⟨_, rfl, he⟩) hs))
    rintro msg rfl
    cases ha
  | _ => exact h

theorem Steps.sent (h : m.Steps a m' (some (.chan k msg))) : ∃ e, m.chans[k]? = some e ∧
    ((∃ a e', e.Steps a e' (some (.send msg))) ∨ ∃ e', e.Decides e' (some msg)) := by
  have hout : ∀ {j eff}, outOf j eff = some (.chan k msg) → j = k ∧ eff = some (.send msg) := by
    intro j eff h
    unfold outOf at h
    split at h <;> cases h
    exact ⟨rfl, rfl⟩
  generalize ho : some (MuxSent.chan k msg) = out at h
  cases h with
  | loop hs =>
    cases hs with
    | refuse hp hno hno' => exact absurd ho.symm (hno k msg)
    | run hp he hc hs =>
      obtain ⟨rfl, rfl⟩ := hout ho.symm
      exact ⟨_, he, .inl ⟨_, _, Endpoint.step_cases hs⟩⟩
    | _ => cases ho
  | decide ha hk he hd =>
    obtain ⟨x, hx, hk'⟩ := Option.map_eq_some_iff.mp ho.symm
    cases hk'
    subst hx
    exact ⟨_, he, .inr ⟨_, hd⟩⟩
  | opened hk he hs | chan ha hno he hs =>
    obtain ⟨rfl, rfl⟩ := hout ho.symm
    exact ⟨_, he, .inl ⟨_, _, hs⟩⟩
  | _ => cases ho

def Announces (n : Nat) (_ : Mux ι) : Act ι → Prop
  | .packet (.channelOpen (.ok msg)) => acceptedAtMost n msg.maxPacketSize
  | .packet (.chan _ (.openConfirm _ _ size)) => acceptedAtMost n size
  | _ => True

theorem sized_step (h : ∀ e ∈ m.chans, e.Sized n) (hg : Announces n m a) (hs : m.Steps a m' out) :
    ∀ e ∈ m'.chans, e.Sized n := by
  refine all_chans_step h hs ?_ ?_ ?_ ?_ ?_ ?_
  · exact fun i => .start (Nat.zero_le n)
  · rintro i msg rfl hl hu
    exact .start (hg hl hu)
  · rintro i msg e rfl he
    refine he.receive ?_
    rintro j w size rfl
    exact hg
  · intro e he
    refine ⟨he.payload, he.reserved, ?_⟩
    intro i w size hc
    change _ ∈ Op.close at hc
    simp [Op.close] at hc
  · exact fun e e' msg hd he => he.decides hd
  · exact fun e a e' eff ha _ hs he => he.step hs ha

/-- In every run in which the peers accept at most `n` bytes in a packet, the data packets of this
extended code have at most `maxPacket` bytes. -/
def DataFits (ι : Type) [Fintype ι] [DecidableEq ι] (n code : Nat) : Prop :=
  ∀ (as : List (Act ι)) m a m' k e ext len payload, Along next (Announces n) newMux as →
    exec next newMux as = some m → m.step a = some (m', some (.chan k (.data ext len payload))) →
      ext.getD 0 = code → m.chans[k]? = some e → (e.ch.dataPacket code payload).length ≤ maxPacket

theorem dataFits_of_le (h : Channel.headerLength code + n ≤ maxPacket) : DataFits ι n code := by
  intro as m a m' k e ext len payload hg hr hs hc he
  have hsized : ∀ e ∈ m.chans, e.Sized n := by
    refine run_invariant (I := fun m : Mux ι => ∀ e ∈ m.chans, e.Sized n) ?_
      (fun e he => by cases he) hg hr
    intro m a m' hi hg hs
    obtain ⟨⟨m'', out⟩, hstep, rfl⟩ := Option.map_eq_some_iff.mp hs
    exact sized_step hi hg (step_cases hstep)
  obtain ⟨x, hx, ⟨a', e', hsend⟩ | ⟨e', hd⟩⟩ := (step_cases hs).sent
  · cases he.symm.trans hx
    have hlen := (hsized e (mem_of_getElem? he)).sends hsend
    rw [Channel.length_dataPacket]
    simp only [ChanMsg.payloadLength] at hlen
    omega
  · cases hd

theorem next_chan (he : m.chans[k]? = some e) (hs : e.step a = some (e', none))
    (ha : a.user = true) (ho : a ≠ .opened) : m.next (.chan k a) = some (m.setChan k e') := by
  simp [next, Mux.step, ha, ho, runUser, he, hs, absorb]

/-- The peer opens a channel, announcing `n` both as its window and as its MaxPacketSize, and the
channel is accepted. -/
def opening (ι : Type) (n : Nat) : List (Act ι) :=
  [.packet (.channelOpen (.ok ⟨0, n, n⟩)), .loop .comm, .loop .comm, .takeChannel, .accept 0]

theorem exec_opening (hl : minPacketLength ≤ n) (hu : n ≤ 2 ^ 31) :
    ∃ (m : Mux ι) (e : Endpoint ι), exec next newMux (opening ι n) = some m ∧
      m.chans[0]? = some e ∧ e.opened = true ∧ e.gos = (fun _ => .idle) ∧
        e.ch = (Channel.handleChannelOpen 0 ⟨0, n, n⟩).accept.1 := by
  have hn : ¬ (n < minPacketLength ∨ n > 2 ^ 31) := by omega
  have h₁ : newMux.next (.packet (.channelOpen (.ok ⟨0, n, n⟩))) = some
      ((newMux.newChannel fun id => Channel.handleChannelOpen id ⟨0, n, n⟩).goto
        (.offer 0) : Mux ι) := by
    simp only [next, Mux.step, onePacket, hn, if_false]
    rfl
  rw [opening, exec, h₁]
  exact ⟨_, _, rfl, rfl, rfl, rfl, rfl⟩

theorem exists_full_packet (i : ι) (code : Nat) (hl : minPacketLength ≤ n) (hu : n ≤ 2 ^ 31) :
    ∃ as m e m', Along next (Announces n) newMux as ∧ exec next newMux as = some m ∧
      m.chans[0]? = some e ∧ m.step (.chan 0 (.run i .comm)) =
        some (m', some (.chan 0 (Channel.dataMsg code (replicate n 0)))) := by
  obtain ⟨m, e, hr, he, ho, hi, hch⟩ := exec_opening (ι := ι) hl hu
  have hlen : (replicate n (0 : UInt8)).length = n := length_replicate
  have hwin : e.ch.remoteWin = ⟨(replicate n (0 : UInt8)).length, false⟩ := by
    have hadd : Window.add ⟨0, false⟩ n = (true, ⟨0 + n, false⟩) :=
      Window.add_of_lt (w := ⟨0, false⟩) (by simp only; omega)
    rw [hch, hlen, Nat.zero_add] at *
    exact congrArg Prod.snd hadd
  have hne : replicate n (0 : UInt8) ≠ [] := by
    rw [Ne, replicate_eq_nil_iff]
    simp only [minPacketLength] at hl
    omega
  obtain ⟨e₁, e₂, e₃, e₄, h₁, h₂, h₃, h₄⟩ := e.writes_all i code ho hi (by rw [hch]; rfl)
    (by rw [hch]; rfl) (by rw [hch]; rfl) (by rw [hch]; rfl) hwin (by rw [hch, hlen]; rfl)
    (by rw [hlen]; omega) hne
  have hset : ∀ {m : Mux ι} {e e' : Endpoint ι}, m.chans[0]? = some e →
      (m.setChan 0 e').chans[0]? = some e' := fun he => (getElem?_set he _ 0).trans (if_pos rfl)
  refine ⟨opening ι n ++ [.chan 0 (.call i (.write code (replicate n 0))),
    .chan 0 (.run i .comm), .chan 0 (.run i .comm)], ((m.setChan 0 e₁).setChan 0 e₂).setChan 0 e₃,
      e₃,
    (((m.setChan 0 e₁).setChan 0 e₂).setChan 0 e₃).setChan 0 e₄, ?_, ?_, hset (hset (hset he)), ?_⟩
  · apply along_of_forall
    intro a ha m
    simp only [opening, cons_append, nil_append, mem_cons, not_mem_nil,
      or_false] at ha
    obtain rfl | rfl | rfl | rfl | rfl | rfl | rfl | rfl := ha
    · exact fun _ _ => Nat.le_refl n
    all_goals trivial
  · rw [exec_append, hr]
    simp only [Option.bind_some, exec]
    rw [next_chan he h₁ rfl (by simp), Option.bind_some, next_chan (hset he) h₂ rfl (by simp),
      Option.bind_some, next_chan (hset (hset he)) h₃ rfl (by simp), Option.bind_some]
  · simp only [Mux.step, reduceCtorEq, if_false, Endpoint.Act.user, if_true, runUser,
      hset (hset (hset he)), Option.bind_some, h₄, Option.map_some]
    rfl

/-- Data packets fit exactly when the peer announces no more than the header leaves room for. -/
theorem dataFits_iff (i : ι) (n code : Nat) (hl : minPacketLength ≤ n) (hu : n ≤ 2 ^ 31) :
    DataFits ι n code ↔ Channel.headerLength code + n ≤ maxPacket := by
  constructor
  · intro hfit
    obtain ⟨as, m, e, m', hg, hr, he, hs⟩ := exists_full_packet i code hl hu
    have h := hfit as m _ m' 0 e _ _ _ hg hr hs ?_ he
    · rwa [Channel.length_dataPacket, length_replicate] at h
    split
    · rfl
    · rw [Option.getD_none]
      omega
  · exact dataFits_of_le

theorem dataFits_channelMaxPacket :
    DataFits Unit channelMaxPacket 0 ∧ DataFits Unit channelMaxPacket 1 :=
  ⟨(dataFits_iff () channelMaxPacket 0 (by decide) (by decide)).mpr (by decide),
    (dataFits_iff () channelMaxPacket 1 (by decide) (by decide)).mpr (by decide)⟩

/-- A peer that announces a MaxPacketSize of 256 KiB is sent a packet that the stream ciphers
refuse. -/
theorem data_packet_refused :
    ∃ (as : List (Act Unit)) (m m' : Mux Unit) (e : Endpoint Unit) (payload : Bytes),
      exec next newMux as = some m ∧ m.chans[0]? = some e ∧
        m.step (.chan 0 (.run () .comm)) = some (m', some (.chan 0 (Channel.dataMsg 0 payload))) ∧
          ∀ seqNum c w, StreamPacketCipher.writePacket seqNum (e.ch.dataPacket 0 payload) (c, w) =
            (.error (.text "ssh: packet too large"), (c, w)) := by
  have hl : minPacketLength ≤ maxPacket := by decide
  obtain ⟨as, m, e, m', -, hr, he, hs⟩ := exists_full_packet () 0 hl (by decide)
  refine ⟨as, m, m', e, _, hr, he, hs, ?_⟩
  intro seqNum c w
  refine StreamPacketCipher.writePacket_of_lt ?_
  rw [Channel.length_dataPacket, length_replicate]
  exact Nat.lt_add_of_pos_left (by decide)

end Mux

end XCryptoSsh
