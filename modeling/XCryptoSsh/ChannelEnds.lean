import XCryptoSsh.ChannelIntegrity
import XCryptoSsh.MuxData

namespace XCryptoSsh
set_option autoImplicit true

open Machine Endpoint List Function Effect

def Pc.failure (err : Err) : Pc → Outcome
  | .send code n _ _ => .wrote code n (some err)
  | .adjust code taken => .read code taken (if err = .eof then none else some err)
  | .transmit .. => .answered false (some err)
  | _ => .done (some err)

def Pc.holdsRequestMu : Pc → Bool
  | .transmit _ wantReply _ => wantReply
  | _ => false

namespace Endpoint

variable {ι : Type} [DecidableEq ι]

def overlap (e : Endpoint ι) (i : ι) (m : Method) : Option (Endpoint ι) :=
  if e.opened = true ∧ e.gos i = .idle then
    some { e.set i m.enter with log := e.log ++ [.called m] }
  else none

def failWrite (e : Endpoint ι) (i : ι) (err : Err) : Option (Endpoint ι) :=
  match e.ch.run .comm (e.gos i) with
  | some ⟨c, _, some (.send m), _⟩ => some { e.set i .idle with
      ch := { c with sentRequestMu := c.sentRequestMu && !(e.gos i).holdsRequestMu }
      log := e.log ++ [.sent m, .returned ((e.gos i).failure err)] }
  | _ => none

def failAccept (e : Endpoint ι) : Option (Endpoint ι) :=
  match e.accept with
  | some (e', some _) => some { e' with opened := e.opened }
  | _ => none

theorem failWrite_cases {e : Endpoint ι} (h : e.failWrite i err = some e') :
    ∃ r m locked, Runs e.ch (e.gos i) r ∧ r.effect = some (.send m) ∧
      e' = { e.set i .idle with
        ch := { r.ch with sentRequestMu := locked }
        log := e.log ++ [.sent m, .returned ((e.gos i).failure err)] } := by
  unfold failWrite at h
  split at h
  · rename_i c pc m o hr
    cases h
    exact ⟨_, m, _, Channel.run_cases hr, rfl, rfl⟩
  · cases h

omit [DecidableEq ι] in
theorem failAccept_cases {e : Endpoint ι} (h : e.failAccept = some e') :
    ∃ e₁ m, e.Decides e₁ (some m) ∧ e' = { e₁ with opened := e.opened } := by
  unfold failAccept at h
  split at h
  · rename_i e₁ m ha
    cases h
    exact ⟨e₁, m, accept_cases ha, rfl⟩
  · cases h

end Endpoint

namespace Mux

variable {ι : Type} [Fintype ι] [DecidableEq ι] {m m' : Mux ι}

inductive PassAct (ι : Type) where
  | act (a : Act ι)
  | overlap (k : Nat) (i : ι) (c : Method)
  | failWrite (k : Nat) (i : ι) (err : Err)
  | failAccept (k : Nat)
  deriving DecidableEq

/-- A step of the mux, or one of those that need a connection that fails or calls that overlap. -/
def pass (m : Mux ι) : PassAct ι → Option (Mux ι)
  | .act a => m.next a
  | .overlap k i c => (m.chans[k]?.bind fun e => e.overlap i c).map (m.setChan k)
  | .failWrite k i err => (m.chans[k]?.bind fun e => e.failWrite i err).map (m.setChan k)
  | .failAccept k =>
    if k ∈ m.newChannels then (m.chans[k]?.bind fun e => e.failAccept).map (m.setChan k) else none

theorem all_chans_pass {P : Endpoint ι → Prop} (h : ∀ e ∈ m.chans, P e) (hs : m.pass a = some m')
    (hstart : ∀ ch : Channel, ch.sentEOF = false → ch.maxRemotePayload ≤ 2 ^ 31 →
      P (.start ch false []))
    (hreceive : ∀ msg e, P e → P (e.receive msg))
    (hclose : ∀ e, P e → P { e with loop := Op.close })
    (hdecide : ∀ e e' msg, e.Decides e' msg → P e → P e')
    (hstep : ∀ e b e' eff, (b.user = true → ∃ k, a = .act (.chan k b) ∧ m.chans[k]? = some e) →
      e.Steps b e' eff → P e → P e')
    (hoverlap : ∀ e i c e', e.overlap i c = some e' → P e → P e')
    (hfail : ∀ e k i err e', a = .failWrite k i err → m.chans[k]? = some e →
      e.failWrite i err = some e' → P e → P e')
    (haccept : ∀ e e', e.failAccept = some e' → P e → P e') : ∀ e ∈ m'.chans, P e := by
  have hset : ∀ {k : Nat} {f : Endpoint ι → Option (Endpoint ι)},
      (∀ e e', m.chans[k]? = some e → f e = some e' → P e → P e') →
      (m.chans[k]?.bind f).map (m.setChan k) = some m' → ∀ e ∈ m'.chans, P e := by
    intro k f hf hs x hx
    obtain ⟨e', he', rfl⟩ := Option.map_eq_some_iff.mp hs
    obtain ⟨e, he, hfe⟩ := Option.bind_eq_some_iff.mp he'
    obtain hx | rfl := mem_or_eq_of_mem_set hx
    · exact h x hx
    · exact hf e x he hfe (h e (mem_of_getElem? he))
  cases a with
  | act a =>
    obtain ⟨⟨m'', out⟩, hstep', rfl⟩ := Option.map_eq_some_iff.mp hs
    refine all_chans_step h (step_cases hstep') ?_ ?_ ?_ hclose hdecide ?_
    · exact fun i => hstart _ rfl (Nat.zero_le _)
    · exact fun i msg _ _ hu => hstart _ rfl hu
    · exact fun i msg e _ he => hreceive msg e he
    intro e b e' eff _ hb hs' he
    refine hstep e b e' eff (fun hu => ?_) hs' he
    obtain ⟨k, rfl, hk⟩ := hb hu
    exact ⟨k, rfl, hk⟩
  | overlap k i c => exact hset (fun e e' _ => hoverlap e i c e') hs
  | failWrite k i err => exact hset (fun e e' => hfail e k i err e' rfl) hs
  | failAccept k =>
    obtain ⟨-, hs⟩ := Option.ite_none_right_eq_some.mp hs
    exact hset (fun e e' _ => haccept e e') hs

end Mux

namespace Endpoint

variable {ι : Type} [DecidableEq ι] {e e' : Endpoint ι}

omit [DecidableEq ι] in
theorem Sent.of_same (h : Sent e) (hl : sentMsgs e'.log = sentMsgs e.log)
    (hc : e'.ch.sentClose = e.ch.sentClose) : Sent e' := by
  refine ⟨fun hm => ?_, fun l l' he => h.last l l' (hl ▸ he)⟩
  rw [hc]
  exact h.closed (hl ▸ hm)

omit [DecidableEq ι] in
theorem Sent.start (ch : Channel) : Sent (Endpoint.start ch false [] : Endpoint ι) :=
  ⟨nofun, fun l l' h => by simp [Endpoint.start, sentMsgs] at h⟩

omit [DecidableEq ι] in
theorem Decides.sends (h : e.Decides e' msg) :
    sentMsgs e'.log = sentMsgs e.log ++ sends (msg.map .send) ∧
      Closes e.ch e'.ch (msg.map .send) ∧ e.ch.Later e'.ch ∧ e'.gos = e.gos ∧
      e'.ch.sentEOF = e.ch.sentEOF ∧ msg ≠ some .eof ∧ ∀ x n p, msg ≠ some (.data x n p) := by
  cases h with
  | accept hd hs =>
    refine ⟨by simp [sends, sentMsgs, Event.sentMsg], ?_, ⟨id, id, id, id⟩, rfl, rfl,
      by simp, by simp⟩
    intro m hm
    obtain rfl := mem_singleton.mp hm
    exact ⟨hs, by simp⟩
  | reject hd hs =>
    refine ⟨by simp [sends, sentMsgs, Event.sentMsg], ?_, ⟨id, fun _ => rfl, id, id⟩, rfl,
      rfl, by simp, by simp⟩
    intro m hm
    obtain rfl := mem_singleton.mp hm
    exact ⟨hs, by simp⟩
  | late hd hs hi =>
    exact ⟨by simp [sends], by rintro _ ⟨⟩, ⟨id, hi, id, id⟩, rfl, rfl, by simp, by simp⟩

theorem Sent.failWrite (h : Sent e) (hf : e.failWrite i err = some e') : Sent e' := by
  obtain ⟨r, m, locked, hr, hm, rfl⟩ := failWrite_cases hf
  have hlater := hr.later
  have hsent : sentMsgs (e.log ++ [.sent m, .returned ((e.gos i).failure err)]) =
      sentMsgs e.log ++ sends r.effect := by
    simp [hm, sends, sentMsgs, Event.sentMsg]
  exact h.step hsent hr.closes ⟨hlater.1, hlater.2, hlater.3, hlater.4⟩

omit [DecidableEq ι] in
theorem Sent.decides (h : Sent e) (hd : e.Decides e' msg) : Sent e' :=
  h.step hd.sends.1 hd.sends.2.1 hd.sends.2.2.1

end Endpoint

namespace Mux

variable {ι : Type} [Fintype ι] [DecidableEq ι] {m m' : Mux ι}

theorem sent_pass (h : ∀ e ∈ m.chans, e.Sent) (hs : m.pass a = some m') :
    ∀ e ∈ m'.chans, e.Sent := by
  refine all_chans_pass h hs ?_ ?_ ?_ ?_ ?_ ?_ ?_ ?_
  · exact fun ch _ _ => Endpoint.Sent.start ch
  · exact fun msg e he => he.of_same (by simp [receive]) rfl
  · exact fun e he => ⟨he.closed, he.last⟩
  · exact fun e e' msg hd he => he.decides hd
  · exact fun e b e' eff _ hs he => he.step hs.sentMsgs hs.closes hs.later
  · intro e i c e' ho he
    obtain ⟨-, rfl⟩ := of_guard ho
    exact he.of_same (by simp) rfl
  · exact fun e k i err e' _ _ hf he => he.failWrite hf
  · intro e e' ha he
    obtain ⟨e₁, msg, hd, rfl⟩ := failAccept_cases ha
    exact ⟨(he.decides hd).closed, (he.decides hd).last⟩

/-- The CLOSE of a channel is sent once, and is its last packet. -/
theorem close_sent_last {e : Endpoint ι} {k : Nat} (h : exec pass (newMux : Mux ι) as = some m)
    (he : m.chans[k]? = some e) (hs : sentMsgs e.log = l ++ .close :: l') :
    l' = [] ∧ .close ∉ l := by
  have hsent : ∀ e ∈ m.chans, e.Sent := by
    refine run_invariant (I := fun m => ∀ e ∈ m.chans, e.Sent) (G := fun _ _ => True)
      ?_ ?_ (along_of_forall fun _ _ _ => trivial) h
    · exact fun m a m' hi _ hs => sent_pass hi hs
    · exact fun e he => by cases he
  have hlast := (hsent e (mem_of_getElem? he)).last
  refine ⟨hlast l l' hs, fun hmem => ?_⟩
  obtain ⟨a, b, rfl⟩ := append_of_mem hmem
  have hno := hlast a (b ++ .close :: l') (by rw [hs]; simp)
  simp at hno

def closedTwice : List (Act Unit) :=
  inboundOpen ++ [.accept 0, .chan 0 (.call () .close), .chan 0 (.run () .comm),
    .chan 0 (.run () .comm), .chan 0 (.run () .comm), .chan 0 (.run () .comm),
    .packet (.chan 0 .close), .loop .comm]

theorem close_sent_last_closedTwice : ∃ m e, exec pass newMux (closedTwice.map .act) = some m ∧
    m.chans[0]? = some e ∧
    sentMsgs e.log = [.openConfirm 0 channelWindowSize channelMaxPacket] ++ .close :: [] ∧
      .close ∉ [ChanMsg.openConfirm 0 channelWindowSize channelMaxPacket] := by
  have h : ∃ m e, exec pass newMux (closedTwice.map .act) = some m ∧ m.chans[0]? = some e ∧
      sentMsgs e.log = [.openConfirm 0 channelWindowSize channelMaxPacket] ++ .close :: [] :=
    ⟨_, _, rfl, rfl, rfl⟩
  obtain ⟨m, e, hm, he, hs⟩ := h
  exact ⟨m, e, hm, he, hs, (close_sent_last hm he hs).2⟩

end Mux

def ChanMsg.isData : ChanMsg → Bool
  | .data .. => true
  | _ => false

def Pc.pastTest : Pc → Bool
  | .reserve .. | .send .. => true
  | _ => false

theorem Pc.of_requesting {pc : Pc} (h : pc.requesting = true) :
    pc.pastTest = false ∧ pc ≠ .sendEOF := by
  cases pc <;> simp_all [Pc.requesting, Pc.pastTest]

theorem ChanMsg.of_requesting {m : ChanMsg} (h : m.requesting = true) :
    m.isData = false ∧ m ≠ .eof := by
  cases m <;> simp_all [ChanMsg.requesting, ChanMsg.isData]

structure Runs.Ends (c : Channel) (pc : Pc) (r : Ran) : Prop where
  tested : r.pc.pastTest = true → pc.pastTest = true ∨ c.sentEOF = false
  flagged : r.pc = .sendEOF → r.ch.sentEOF = true
  kept : c.sentEOF = true → r.ch.sentEOF = true
  data : ∀ m ∈ Effect.sends r.effect, m.isData = true → pc.pastTest = true
  eof : .eof ∈ Effect.sends r.effect → pc = .sendEOF

theorem Runs.Ends.of_silent (hs : Effect.sends r.effect = [])
    (htested : r.pc.pastTest = true → pc.pastTest = true ∨ c.sentEOF = false)
    (hflagged : r.pc = .sendEOF → r.ch.sentEOF = true)
    (hkept : c.sentEOF = true → r.ch.sentEOF = true) : Runs.Ends c pc r := by
  refine ⟨htested, hflagged, hkept, ?_, ?_⟩
  · simp [hs]
  · simp [hs]

theorem Runs.ends (h : Runs c pc r) : Runs.Ends c pc r := by
  cases h with
  | write he hd => exact .of_silent rfl (fun _ => .inr he) (by rintro ⟨⟩) id
  | reserve => exact .of_silent rfl (fun _ => .inl rfl) (by rintro ⟨⟩) id
  | sendLast h =>
    exact ⟨by rintro ⟨⟩, by rintro ⟨⟩, id, fun _ _ _ => rfl,
      by simp [Effect.sends, Channel.dataMsg]⟩
  | send h hd =>
    exact ⟨fun _ => .inl rfl, by rintro ⟨⟩, id, fun _ _ _ => rfl,
      by simp [Effect.sends, Channel.dataMsg]⟩
  | adjust h | sendClose h =>
    exact ⟨by rintro ⟨⟩, by rintro ⟨⟩, id, by simp [Effect.sends, ChanMsg.isData],
      by simp [Effect.sends]⟩
  | closeWrite => exact .of_silent rfl (by rintro ⟨⟩) (fun _ => rfl) fun _ => rfl
  | sendEOF h =>
    exact ⟨by rintro ⟨⟩, by rintro ⟨⟩, id, by simp [Effect.sends, ChanMsg.isData], fun _ => rfl⟩
  | request hp hp' =>
    have hpc := Pc.of_requesting hp'
    exact .of_silent rfl (fun h => .inl (absurd h (by simp [hpc.1]))) (fun h => absurd h hpc.2) id
  | @requestSent pc' o _ m hp hp' h hm ho =>
    have hpc : pc'.pastTest = false ∧ pc' ≠ .sendEOF := by
      obtain rfl | hp' := hp'
      · exact ⟨rfl, by simp⟩
      · exact Pc.of_requesting hp'
    have hmsg := ChanMsg.of_requesting hm
    refine ⟨fun h => .inl (absurd h (by simp [hpc.1])), fun h => absurd h hpc.2, id, ?_, ?_⟩
    · intro x hx hd
      obtain rfl := mem_singleton.mp hx
      cases hmsg.1.symm.trans hd
    · exact fun he => absurd (mem_singleton.mp he).symm hmsg.2
  | _ => exact .of_silent rfl (by rintro ⟨⟩) (by rintro ⟨⟩) id

theorem Performs.ends (h : Performs c choice op p) :
    p.ch.sentEOF = c.sentEOF ∧ .eof ∉ sends p.effect ∧
      ∀ m ∈ sends p.effect, m.isData = false := by
  cases h <;> simp [sends, Channel.fault, Channel.step, ChanMsg.isData, Channel.storeData_eq]

namespace Endpoint

variable {ι : Type} [DecidableEq ι] {e e' : Endpoint ι}

def Drained (e : Endpoint ι) : Prop := ∀ j, (e.gos j).pastTest = false

structure DataFirst (e : Endpoint ι) : Prop where
  ending : ∀ i, e.gos i = .sendEOF → e.ch.sentEOF = true
  drained : .eof ∈ sentMsgs e.log → e.ch.sentEOF = true ∧ e.Drained
  after : ∀ l l', sentMsgs e.log = l ++ .eof :: l' → ∀ m ∈ l', m.isData = false

omit [DecidableEq ι] in
theorem DataFirst.step (h : DataFirst e) (hs : sentMsgs e'.log = sentMsgs e.log ++ ms)
    (hn : ms.length ≤ 1)
    (hending : ∀ i, e'.gos i = .sendEOF → e'.ch.sentEOF = true)
    (hkept : e.ch.sentEOF = true → e'.ch.sentEOF = true)
    (htested : e.ch.sentEOF = true → e.Drained → e'.Drained)
    (hdata : e.Drained → ∀ m ∈ ms, m.isData = false)
    (heof : .eof ∈ ms → e.ch.sentEOF = true ∧ e.Drained) : DataFirst e' := by
  have hdrained : .eof ∈ sentMsgs e'.log → e.ch.sentEOF = true ∧ e.Drained := by
    intro hm
    rw [hs, mem_append] at hm
    exact hm.elim h.drained heof
  refine ⟨hending, fun hm => ?_, ?_⟩
  · obtain ⟨hf, hd⟩ := hdrained hm
    exact ⟨hkept hf, htested hf hd⟩
  · rw [hs]
    exact forall_after_append h.after (fun hm => hdata (h.drained hm).2) hn

omit [DecidableEq ι] in
theorem DataFirst.frame (h : DataFirst e) (hg : e'.gos = e.gos) (hf : e'.ch.sentEOF = e.ch.sentEOF)
    (hs : sentMsgs e'.log = sentMsgs e.log ++ ms) (hn : ms.length ≤ 1)
    (hm : ∀ m ∈ ms, m.isData = false ∧ m ≠ .eof) : DataFirst e' := by
  refine h.step hs hn ?_ (fun hk => hf.trans hk) ?_ (fun _ m hx => (hm m hx).1)
    (fun hx => absurd rfl (hm _ hx).2)
  · exact fun i hi => hf.trans (h.ending i (congrFun hg i ▸ hi))
  · exact fun _ hd j => congrFun hg j ▸ hd j

omit [DecidableEq ι] in
theorem DataFirst.of_same (h : DataFirst e) (hg : e'.gos = e.gos)
    (hf : e'.ch.sentEOF = e.ch.sentEOF) (hs : sentMsgs e'.log = sentMsgs e.log) : DataFirst e' :=
  h.frame hg hf (hs.trans (append_nil _).symm) (Nat.zero_le 1) nofun

omit [DecidableEq ι] in
theorem DataFirst.decides (h : DataFirst e) (hd : e.Decides e' msg) : DataFirst e' := by
  obtain ⟨hs, -, -, hg, hf, heof, hdata⟩ := hd.sends
  refine h.frame hg hf hs (length_sends_le _) ?_
  intro m hm
  cases msg with
  | none => cases hm
  | some msg =>
    obtain rfl := mem_singleton.mp hm
    refine ⟨?_, fun he => heof (congrArg some he)⟩
    cases m <;> first | rfl | exact absurd rfl (hdata _ _ _)

theorem DataFirst.call (h : DataFirst e) (hi : e.gos i = .idle) (m : Method) :
    DataFirst { e.set i m.enter with log := e.log ++ [.called m] } := by
  have hm : m.enter ≠ .sendEOF ∧ m.enter.pastTest = false := by
    cases m <;> exact ⟨nofun, rfl⟩
  have hs : sentMsgs (e.log ++ [.called m]) = sentMsgs e.log ++ [] := by
    simp [sentMsgs, Event.sentMsg]
  refine h.step hs (Nat.zero_le 1) ?_ id ?_ nofun nofun
  · intro j hj
    by_cases hij : j = i
    · subst hij
      exact absurd (by simpa [set] using hj) hm.1
    · exact h.ending j (by simpa [set, update_of_ne hij] using hj)
  · intro _ hd j
    by_cases hij : j = i
    · subst hij
      simpa [set] using hm.2
    · simpa [set, update_of_ne hij] using hd j

theorem DataFirst.ran (h : DataFirst e) (hr : Runs e.ch (e.gos i) r)
    (hd : e.gos i = .sendEOF → e.Drained) (hg : e'.gos = update e.gos i pc)
    (hpc : pc = r.pc ∨ pc = .idle) (hf : e'.ch.sentEOF = r.ch.sentEOF)
    (hs : sentMsgs e'.log = sentMsgs e.log ++ sends r.effect) : DataFirst e' := by
  have hends := hr.ends
  refine h.step hs (length_sends_le _) ?_ (fun hk => hf.trans (hends.kept hk)) ?_ ?_ ?_
  · intro j hj
    rw [hf]
    by_cases hij : j = i
    · subst hij
      rw [hg, update_self] at hj
      subst hj
      exact hends.flagged (hpc.elim Eq.symm nofun)
    · rw [hg, update_of_ne hij] at hj
      exact hends.kept (h.ending j hj)
  · intro hflag hdr j
    by_cases hij : j = i
    · subst hij
      rw [hg, update_self]
      obtain rfl | rfl := hpc
      · by_contra ht
        obtain hp | hp := hends.tested (by simpa using ht)
        · cases (hdr j).symm.trans hp
        · cases hflag.symm.trans hp
      · rfl
    · rw [hg, update_of_ne hij]
      exact hdr j
  · intro hdr m hm
    by_contra ht
    cases (hdr i).symm.trans (hends.data m hm (by simpa using ht))
  · intro hm
    have hpc := hends.eof hm
    exact ⟨h.ending i hpc, hd hpc⟩

theorem DataFirst.steps (h : DataFirst e) (hs : e.Steps a e' eff)
    (hd : ∀ i choice, a = .run i choice → e.gos i = .sendEOF → e.Drained) : DataFirst e' := by
  cases hs with
  | call ho hi hm => exact h.call hi _
  | @run i r choice hr =>
    have hs : e.Steps (.run i choice) (e.ran i r) r.effect := .run hr
    exact h.ran hr (hd i choice rfl) rfl (.inl rfl) rfl hs.sentMsgs
  | loop hl hp =>
    have hends := hp.ends
    refine h.frame rfl hends.1 (Steps.loop hl hp).sentMsgs (length_sends_le _) ?_
    exact fun m hm => ⟨hends.2.2 m hm, fun he => hends.2.1 (he ▸ hm)⟩
  | deliver => exact h.of_same rfl rfl (by simp [sentMsgs, Event.sentMsg])
  | _ => exact h.of_same rfl rfl rfl

end Endpoint

namespace Mux

variable {ι : Type} [Fintype ι] [DecidableEq ι] {m m' : Mux ι}

/-- An EOF is passed to the connection only while no write is past its test of `sentEOF`. -/
def EndsDrained (m : Mux ι) : PassAct ι → Prop
  | .act (.chan k (.run i _)) | .failWrite k i _ =>
    ∀ e ∈ m.chans[k]?, e.gos i = .sendEOF → ∀ j, (e.gos j).pastTest = false
  | _ => True

theorem dataFirst_pass (h : ∀ e ∈ m.chans, e.DataFirst) (hg : m.EndsDrained a)
    (hs : m.pass a = some m') : ∀ e ∈ m'.chans, e.DataFirst := by
  refine all_chans_pass h hs ?_ ?_ ?_ ?_ ?_ ?_ ?_ ?_
  · exact fun ch _ _ => ⟨nofun, nofun, fun l l' h => by simp [Endpoint.start, sentMsgs] at h⟩
  · exact fun msg e he => he.of_same rfl rfl (by simp [receive])
  · exact fun e he => ⟨he.ending, he.drained, he.after⟩
  · exact fun e e' msg hd he => he.decides hd
  · intro e b e' eff hb hs he
    refine he.steps hs ?_
    rintro i choice rfl
    obtain ⟨k, rfl, hk⟩ := hb rfl
    exact hg e hk
  · intro e i c e' ho he
    obtain ⟨⟨-, hi⟩, ho⟩ := Option.ite_none_right_eq_some.mp ho
    cases ho
    exact he.call hi c
  · rintro e k i err e' rfl hk hf he
    obtain ⟨r, msg, locked, hr, hm, rfl⟩ := failWrite_cases hf
    refine he.ran hr (hg e hk) rfl (.inr rfl) rfl ?_
    simp [hm, sends, sentMsgs, Event.sentMsg]
  · intro e e' ha he
    obtain ⟨e₁, msg, hd, rfl⟩ := failAccept_cases ha
    have hd := he.decides hd
    exact ⟨hd.ending, hd.drained, hd.after⟩

/-- No data of a channel is passed to the connection after its EOF. -/
theorem eof_sent_last {e : Endpoint ι} {k : Nat} (h : exec pass (newMux : Mux ι) as = some m)
    (hg : Along pass EndsDrained newMux as) (he : m.chans[k]? = some e)
    (hs : sentMsgs e.log = l ++ .eof :: l') : ∀ msg ∈ l', msg.isData = false := by
  have hfin : ∀ e ∈ m.chans, e.DataFirst := by
    refine run_invariant (I := fun m => ∀ e ∈ m.chans, e.DataFirst) ?_ ?_ hg h
    · exact fun m a m' hi hg hs => dataFirst_pass hi hg hs
    · exact fun e he => by cases he
  exact (hfin e (mem_of_getElem? he)).after l l' hs

def accepted : List (Act Bool) :=
  [.packet (.channelOpen (.ok ⟨0, 2 ^ 15, 2 ^ 15⟩)), .loop .comm, .loop .comm, .takeChannel,
    .accept 0]

/-- `true` ends the stream while the `Write` of `false` waits for the window. -/
def endedDuringWrite : List (Act Bool) :=
  accepted ++ [.chan 0 (.call false (.write 0 [1])), .chan 0 (.run false .comm),
    .chan 0 (.call true .closeWrite), .chan 0 (.run true .comm), .chan 0 (.run true .comm),
    .chan 0 (.run false .comm), .chan 0 (.run false .comm)]

theorem data_sent_after_eof :
    ∃ m e, exec pass newMux (endedDuringWrite.map .act) = some m ∧ m.chans[0]? = some e ∧
      sentMsgs e.log =
        [.openConfirm 0 channelWindowSize channelMaxPacket, .eof, .data none 1 [1]] :=
  ⟨_, _, rfl, rfl, rfl⟩

/-- `true` ends the stream after a `Write` of `false`, whose next one is refused. -/
def endedAfterWrite : List (Act Bool) :=
  accepted ++ [.chan 0 (.call false (.write 0 [1])), .chan 0 (.run false .comm),
    .chan 0 (.run false .comm), .chan 0 (.run false .comm), .chan 0 (.call true .closeWrite),
    .chan 0 (.run true .comm), .chan 0 (.call false (.write 0 [2])), .chan 0 (.run true .comm),
    .chan 0 (.run false .comm), .chan 0 (.call false .close), .chan 0 (.run false .comm),
    .chan 0 (.run false .comm), .chan 0 (.run false .comm), .chan 0 (.run false .comm)]

instance (m : Mux Bool) (a : PassAct Bool) : Decidable (m.EndsDrained a) := by
  unfold EndsDrained
  split <;> infer_instance

theorem eof_sent_last_endedAfterWrite :
    ∃ m e, exec pass newMux (endedAfterWrite.map .act) = some m ∧ m.chans[0]? = some e ∧
      sentMsgs e.log = [.openConfirm 0 channelWindowSize channelMaxPacket, .data none 1 [1]] ++
        .eof :: [.close] ∧
      ∀ msg ∈ [ChanMsg.close], msg.isData = false := by
  have h : ∃ m e, exec pass newMux (endedAfterWrite.map .act) = some m ∧ m.chans[0]? = some e ∧
      sentMsgs e.log = [.openConfirm 0 channelWindowSize channelMaxPacket, .data none 1 [1]] ++
        .eof :: [.close] := ⟨_, _, rfl, rfl, rfl⟩
  obtain ⟨m, e, hm, he, hs⟩ := h
  have hg : Along pass EndsDrained newMux (endedAfterWrite.map .act) := by decide
  exact ⟨m, e, hm, he, hs, eof_sent_last hm hg he hs⟩

end Mux
end XCryptoSsh
