import XCryptoSsh.MuxPeer

namespace XCryptoSsh
set_option autoImplicit true

open Machine List Channel Function

/-- A packet of the peer. A channel packet has the id of its channel; the place of the channel among
those of the mux is kept with it. -/
inductive PeerMsg where
  | chan (k id : Nat) (m : ChanMsg)
  | channelOpen (msg : ChannelOpen)
  | global (msg : GlobalMsg)
  deriving DecidableEq, Repr

def PeerMsg.packet : PeerMsg → MuxMsg
  | .chan _ id m => .chan id m
  | .channelOpen msg => .channelOpen (.ok msg)
  | .global msg => .global (.ok msg)

/-- A mux and its peer, with the packets that each has sent and the other has not read. -/
structure World (ι : Type) where
  mux : Mux ι
  peers : Nat → PeerChan
  toMux : List PeerMsg
  toPeer : List MuxSent

namespace World

variable {ι : Type}

/-- `deliver` is the read of a packet in `onePacket`, `hear` that of the peer. -/
inductive Act (ι : Type) where
  | mux (a : Mux.Act ι)
  | deliver
  | hear
  | say (k : Nat) (m : ChanMsg)
  | offer (msg : ChannelOpen)
  | global (msg : GlobalMsg)
  deriving DecidableEq, Repr

def start : World ι := ⟨.newMux, fun _ => .unheard, [], []⟩

def placed (w : World ι) (m : Mux ι) : PeerMsg → Nat → PeerChan
  | .channelOpen msg =>
    if w.mux.chans.length < m.chans.length then
      update w.peers w.mux.chans.length (.offering msg)
    else w.peers
  | _ => w.peers

def told (w : World ι) : MuxSent → Nat → PeerChan
  | .chan k m => update w.peers k ((w.peers k).hear m)
  | .channelOpen k msg => update w.peers k ((w.peers k).hearOpen msg)
  | .openFailure .. => w.peers

variable [Fintype ι] [DecidableEq ι]

/-- Packets come from the peer only, in the order in which it sent them, and no read fails. -/
def step (w : World ι) : Act ι → Option (World ι)
  | .mux (.packet _) | .mux (.readError _) => none
  | .mux a => (w.mux.step a).map fun (m, out) =>
      { w with mux := m, toPeer := w.toPeer ++ out.toList }
  | .deliver => match w.toMux with
    | [] => none
    | p :: ps => (w.mux.step (.packet p.packet)).map fun (m, _) =>
        { w with mux := m, toMux := ps, peers := w.placed m p }
  | .hear => match w.toPeer with
    | [] => none
    | s :: ss => some { w with toPeer := ss, peers := w.told s }
  | .say k m => ((w.peers k).say m).map fun p =>
      { w with
        peers := update w.peers k p
        toMux := w.toMux ++ [.chan k (w.peers k).id m] }
  | .offer msg =>
    if msg.peersWindow < 2 ^ 32 then some { w with toMux := w.toMux ++ [.channelOpen msg] }
    else none
  | .global msg => some { w with toMux := w.toMux ++ [.global msg] }

/-- Neither the Halter of the mux nor its context is stopped, and no write of the packet loop
fails. -/
def Act.undisturbed : Act ι → Bool
  | .mux .halt | .mux .cancel | .mux (.loop (.wrote (some _))) => false
  | _ => true

/-- No `select` of the packet loop takes the stop of a channel's Halter, the peer confirms with a
MaxPacketSize that the mux takes, and no channel id wraps around. -/
def Spares (w : World ι) (a : Act ι) : Prop :=
  w.mux.chanList.chans.length < 2 ^ 32 ∧ match a with
    | .mux (.loop choice) => choice ≠ .halt
    | .say _ (.openConfirm _ _ n) => minPacketLength ≤ n ∧ n ≤ 2 ^ 31
    | _ => True

instance (w : World ι) : (a : Act ι) → Decidable (w.Spares a)
  | .mux (.loop choice) => inferInstanceAs (Decidable (_ ∧ choice ≠ .halt))
  | .say _ (.openConfirm _ _ n) =>
    inferInstanceAs (Decidable (_ ∧ minPacketLength ≤ n ∧ n ≤ 2 ^ 31))
  | .mux (.packet _) | .mux (.readError _) | .mux .openChannel | .mux (.abandon _)
  | .mux .takeChannel | .mux (.accept _) | .mux (.reject ..) | .mux (.chan ..) | .mux .takeRequest
  | .mux .takeResponse | .mux .halt | .mux .cancel | .deliver | .hear | .offer _ | .global _
  | .say _ (.data ..) | .say _ (.windowAdjust _) | .say _ .eof | .say _ .close
  | .say _ (.openFailure _) | .say _ (.request ..) | .say _ .success | .say _ .failure
  | .say _ (.malformed _) | .say _ (.other _) => inferInstanceAs (Decidable (_ ∧ True))

end World

open ChanMsg Op Effect

def PeerMsg.on (k : Nat) : PeerMsg → Option ChanMsg
  | .chan j _ m => if j = k then some m else none
  | _ => none

/-- What a packet of the mux is for channel `k`. A CHANNEL_OPEN announces the id and the limits of
its channel as a confirmation does. -/
def MuxSent.on (k : Nat) : MuxSent → Option ChanMsg
  | .chan j m => if j = k then some m else none
  | .channelOpen j msg =>
    if j = k then some (.openConfirm msg.peersId msg.peersWindow msg.maxPacketSize) else none
  | .openFailure .. => none

theorem MuxSent.filterMap_outOf (k j : Nat) (eff : Option Effect) :
    (Mux.outOf k eff).toList.filterMap (MuxSent.on j) = if k = j then Effect.sends eff else [] := by
  unfold Mux.outOf Effect.sends
  split
  · by_cases h : k = j <;> simp [MuxSent.on, h]
  · simp

theorem MuxSent.filterMap_decided (k j : Nat) (msg : Option ChanMsg) :
    (msg.map (MuxSent.chan k)).toList.filterMap (MuxSent.on j) =
      if k = j then msg.toList else [] := by
  cases msg with
  | none => simp
  | some m => by_cases h : k = j <;> simp [MuxSent.on, h]

namespace World

variable {ι : Type} [Fintype ι] {w w' : World ι} {e e' : Endpoint ι} {k : Nat}

def inb (w : World ι) (k : Nat) : List ChanMsg := w.toMux.filterMap (PeerMsg.on k)
def outb (w : World ι) (k : Nat) : List ChanMsg := w.toPeer.filterMap (MuxSent.on k)

def Offered (m : Mux ι) (k : Nat) : Prop :=
  k ∈ m.newChannels ∨ k ∈ m.incomingChannels.items ∨ m.pc = .offer k

def Linked (w : World ι) (k : Nat) (e : Endpoint ι) : Prop :=
  e.Funded (w.peers k) (w.inb k) (w.outb k) ∧
    ∃ s, e.Staged (w.peers k) (w.inb k) (w.outb k) (w.mux.Listed k) s

structure Isolated (w : World ι) : Prop where
  sound : w.mux.Sound
  looping : w.mux.pc.looping = true
  unfailed : ∀ err, w.mux.pc ≠ .returned (some err)
  calm : w.mux.halted = false ∧ w.mux.ctxDone = false
  offered : ∀ k, Offered w.mux k → ∃ e, w.mux.chans[k]? = some e ∧ e.ch.direction = .inbound
  chan : ∀ k e, w.mux.chans[k]? = some e → w.Linked k e
  fresh : ∀ k, w.mux.chans.length ≤ k → w.peers k = .unheard ∧ w.inb k = [] ∧ w.outb k = []
  asks : ∀ k msg, .channelOpen k msg ∈ w.toPeer →
    ∃ e, w.mux.chans[k]? = some e ∧ e.ch.direction = .outbound
  addressed : ∀ k i m, .chan k i m ∈ w.toMux →
    ∃ e, w.mux.chans[k]? = some e ∧ e.ch.localId = i
  windows : ∀ msg, .channelOpen msg ∈ w.toMux → msg.peersWindow < 2 ^ 32

theorem isolated_start : (start : World ι).Isolated := by
  refine ⟨Mux.sound_newMux, rfl, ?_, ⟨rfl, rfl⟩, ?_, ?_, fun _ _ => ⟨rfl, rfl, rfl⟩, ?_, ?_, ?_⟩
  · intro err h
    cases h
  · rintro k (h | h | h) <;> cases h
  · intro k e he
    cases he
  · intro k msg hm
    cases hm
  · intro k i m hm
    cases hm
  · intro msg hm
    cases hm

theorem Linked.congr (h : w.Linked k e) (hp : w'.peers k = w.peers k) (hi : w'.inb k = w.inb k)
    (ho : w'.outb k = w.outb k) (hl : w'.mux.Listed k ↔ w.mux.Listed k) : w'.Linked k e := by
  rw [Linked, hp, hi, ho, propext hl]
  exact h

section

variable (h : w.Isolated)

include h

theorem Isolated.goto {m : Mux ι} (hs : m.Sound) (hc : m.chans = w.mux.chans)
    (hl : m.chanList = w.mux.chanList) (hp : m.pc.looping = true)
    (hu : ∀ err, m.pc ≠ .returned (some err))
    (hh : m.halted = false ∧ m.ctxDone = false)
    (ho : ∀ k, Offered m k → Offered w.mux k) (out : List MuxSent)
    (hout : ∀ k, out.filterMap (MuxSent.on k) = []) :
    Isolated { w with mux := m, toPeer := w.toPeer ++ out } := by
  have houtb : ∀ k, outb { w with mux := m, toPeer := w.toPeer ++ out } k = w.outb k := by
    intro k
    rw [outb, filterMap_append, hout, append_nil]
    rfl
  refine ⟨hs, hp, hu, hh, ?_, ?_, ?_, ?_, ?_, h.windows⟩
  · intro k hk
    rw [hc]
    exact h.offered k (ho k hk)
  · intro k e he
    refine (h.chan k e (hc ▸ he)).congr rfl rfl (houtb k) ?_
    rw [Mux.Listed, Mux.Listed, hl]
  · intro k hk
    rw [houtb k]
    exact h.fresh k (hc ▸ hk)
  · intro k msg hm
    rw [hc]
    obtain hm | hm := mem_append.mp hm
    · exact h.asks k msg hm
    · have hn := filterMap_eq_nil_iff.mp (hout k) _ hm
      simp [MuxSent.on] at hn
  · rw [hc]
    exact h.addressed

theorem Isolated.set (he : w.mux.chans[k]? = some e)
    (hc : ∀ j, w'.mux.chans[j]? = if j = k then some e' else w.mux.chans[j]?)
    (hlen : w'.mux.chans.length = w.mux.chans.length)
    (hd : e'.ch.direction = e.ch.direction) (hi : e'.ch.localId = e.ch.localId)
    (hs : w'.mux.Sound) (hp : w'.mux.pc.looping = true)
    (hu : ∀ err, w'.mux.pc ≠ .returned (some err))
    (hh : w'.mux.halted = false ∧ w'.mux.ctxDone = false)
    (ho : ∀ j, Offered w'.mux j → Offered w.mux j) (hself : w'.Linked k e')
    (hother : ∀ j, j ≠ k → w'.peers j = w.peers j ∧ w'.inb j = w.inb j ∧ w'.outb j = w.outb j ∧
      (w'.mux.Listed j ↔ w.mux.Listed j))
    (hasks : ∀ j msg, .channelOpen j msg ∈ w'.toPeer → .channelOpen j msg ∈ w.toPeer)
    (haddr : ∀ j i m, .chan j i m ∈ w'.toMux → .chan j i m ∈ w.toMux ∨ j = k ∧ i = e.ch.localId)
    (hwin : ∀ msg, .channelOpen msg ∈ w'.toMux → .channelOpen msg ∈ w.toMux) : w'.Isolated := by
  -- every channel keeps its direction and its id
  have hkeep : ∀ {j : Nat} {x : Endpoint ι}, w.mux.chans[j]? = some x →
      ∃ x', w'.mux.chans[j]? = some x' ∧ x'.ch.direction = x.ch.direction ∧
        x'.ch.localId = x.ch.localId := by
    intro j x hx
    rw [hc j]
    by_cases hj : j = k
    · subst hj
      cases he.symm.trans hx
      exact ⟨e', if_pos rfl, hd, hi⟩
    · exact ⟨x, (if_neg hj).trans hx, rfl, rfl⟩
  refine ⟨hs, hp, hu, hh, ?_, ?_, ?_, ?_, ?_, fun msg hm => h.windows msg (hwin msg hm)⟩
  · intro j hj
    obtain ⟨x, hx, hdir⟩ := h.offered j (ho j hj)
    obtain ⟨x', hx', hd', -⟩ := hkeep hx
    exact ⟨x', hx', hd'.trans hdir⟩
  · intro j x hx
    rw [hc j] at hx
    by_cases hj : j = k
    · subst hj
      rw [if_pos rfl] at hx
      cases hx
      exact hself
    · rw [if_neg hj] at hx
      obtain ⟨h₁, h₂, h₃, h₄⟩ := hother j hj
      exact (h.chan j x hx).congr h₁ h₂ h₃ h₄
  · intro j hj
    rw [hlen] at hj
    have hjk : j ≠ k := by
      rintro rfl
      obtain ⟨hlt, -⟩ := List.getElem?_eq_some_iff.mp he
      omega
    obtain ⟨h₁, h₂, h₃, -⟩ := hother j hjk
    rw [h₁, h₂, h₃]
    exact h.fresh j hj
  · intro j msg hm
    obtain ⟨x, hx, hdir⟩ := h.asks j msg (hasks j msg hm)
    obtain ⟨x', hx', hd', -⟩ := hkeep hx
    exact ⟨x', hx', hd'.trans hdir⟩
  · intro j i m hm
    obtain hm | ⟨rfl, rfl⟩ := haddr j i m hm
    · obtain ⟨x, hx, hid⟩ := h.addressed j i m hm
      obtain ⟨x', hx', -, hi'⟩ := hkeep hx
      exact ⟨x', hx', hi'.trans hid⟩
    · obtain ⟨x', hx', -, hi'⟩ := hkeep he
      exact ⟨x', hx', hi'⟩

theorem Isolated.chanStep {m : Mux ι} (he : w.mux.chans[k]? = some e)
    (hc : m.chans = w.mux.chans.set k e') (hs : m.Sound) (hp : m.pc = w.mux.pc)
    (hh : m.halted = false ∧ m.ctxDone = false)
    (hn : m.newChannels = w.mux.newChannels) (hq : m.incomingChannels = w.mux.incomingChannels)
    (hd : e'.ch.direction = e.ch.direction) (hi : e'.ch.localId = e.ch.localId)
    (hl : ∀ j, j ≠ k → (m.Listed j ↔ w.mux.Listed j))
    (hout : ∀ j, out.filterMap (MuxSent.on j) = if k = j then ms else [])
    (hask : ∀ j msg, MuxSent.channelOpen j msg ∉ out)
    (hf : e'.Funded (w.peers k) (w.inb k) (w.outb k ++ ms))
    (hst : ∃ s, e'.Staged (w.peers k) (w.inb k) (w.outb k ++ ms) (m.Listed k) s) :
    Isolated { w with mux := m, toPeer := w.toPeer ++ out } := by
  have houtb : ∀ j, outb { w with mux := m, toPeer := w.toPeer ++ out } j =
      w.outb j ++ if k = j then ms else [] := by
    intro j
    rw [outb, filterMap_append, hout]
    rfl
  refine h.set he ?_ ?_ hd hi hs ?_ ?_ hh ?_ ?_ ?_ ?_ (fun j i x hx => .inl hx) (fun msg hm => hm)
  · intro j
    rw [hc]
    exact Mux.getElem?_set he e' j
  · rw [hc, length_set]
  · rw [hp]
    exact h.looping
  · rw [hp]
    exact h.unfailed
  · intro j hj
    rwa [Offered, hn, hq, hp] at hj
  · rw [Linked, houtb, if_pos rfl]
    exact ⟨hf, hst⟩
  · intro j hj
    refine ⟨rfl, rfl, ?_, hl j hj⟩
    rw [houtb, if_neg (Ne.symm hj), append_nil]
  · intro j msg hm
    exact (mem_append.mp hm).resolve_right (hask j msg)

theorem Isolated.newChannel (ch : Nat → Channel) (hc : w'.mux.chans = (w.mux.newChannel ch).chans)
    (hl : w'.mux.chanList = (w.mux.newChannel ch).chanList)
    (hs : w'.mux.Sound) (hp : w'.mux.pc.looping = true)
    (hu : ∀ err, w'.mux.pc ≠ .returned (some err))
    (hh : w'.mux.halted = false ∧ w'.mux.ctxDone = false)
    (ho : ∀ j, Offered w'.mux j → Offered w.mux j ∨
      j = w.mux.chans.length ∧ ∀ i, (ch i).direction = .inbound)
    (hself : w'.Linked w.mux.chans.length
      (.start (ch (w.mux.chanList.add w.mux.chans.length).1) false []))
    (hother : ∀ j, j ≠ w.mux.chans.length →
      w'.peers j = w.peers j ∧ w'.inb j = w.inb j ∧ w'.outb j = w.outb j)
    (hasks : ∀ j msg, .channelOpen j msg ∈ w'.toPeer → .channelOpen j msg ∈ w.toPeer ∨
      j = w.mux.chans.length ∧ ∀ i, (ch i).direction = .outbound)
    (haddr : ∀ j i m, .chan j i m ∈ w'.toMux → .chan j i m ∈ w.toMux)
    (hwin : ∀ msg, .channelOpen msg ∈ w'.toMux → .channelOpen msg ∈ w.toMux) : w'.Isolated := by
  have hlisted : ∀ j, j ≠ w.mux.chans.length → (w'.mux.Listed j ↔ w.mux.Listed j) := by
    intro j hj
    rw [Mux.Listed, hl]
    exact (w.mux.listed_newChannel ch).trans (or_iff_left hj)
  have hnew : w'.mux.chans[w.mux.chans.length]? =
      some (.start (ch (w.mux.chanList.add w.mux.chans.length).1) false []) := by
    rw [hc]
    exact getElem?_concat_length
  have hold : ∀ {j : Nat} {x : Endpoint ι}, w.mux.chans[j]? = some x →
      w'.mux.chans[j]? = some x := by
    intro j x hx
    obtain ⟨hlt, -⟩ := List.getElem?_eq_some_iff.mp hx
    rw [hc]
    exact (List.getElem?_append_left hlt).trans hx
  have hlen : w'.mux.chans.length = w.mux.chans.length + 1 := by
    rw [hc]
    simp [Mux.newChannel]
  refine ⟨hs, hp, hu, hh, ?_, ?_, ?_, ?_, ?_, fun msg hm => h.windows msg (hwin msg hm)⟩
  · intro j hj
    obtain hj | ⟨rfl, hdir⟩ := ho j hj
    · obtain ⟨x, hx, hdir⟩ := h.offered j hj
      exact ⟨x, hold hx, hdir⟩
    · exact ⟨_, hnew, hdir _⟩
  · intro j x hx
    by_cases hj : j = w.mux.chans.length
    · subst hj
      cases hnew.symm.trans hx
      exact hself
    have hlt : j < w.mux.chans.length := by
      obtain ⟨hlt, -⟩ := List.getElem?_eq_some_iff.mp hx
      omega
    have hx' := List.getElem?_eq_getElem hlt
    cases (hold hx').symm.trans hx
    obtain ⟨h₁, h₂, h₃⟩ := hother j hj
    exact (h.chan j _ hx').congr h₁ h₂ h₃ (hlisted j hj)
  · intro j hj
    obtain ⟨h₁, h₂, h₃⟩ := hother j (by omega)
    rw [h₁, h₂, h₃]
    exact h.fresh j (by omega)
  · intro j msg hm
    obtain hm | ⟨rfl, hdir⟩ := hasks j msg hm
    · obtain ⟨x, hx, hdir⟩ := h.asks j msg hm
      exact ⟨x, hold hx, hdir⟩
    · exact ⟨_, hnew, hdir _⟩
  · intro j i m hm
    obtain ⟨x, hx, hid⟩ := h.addressed j i m (haddr j i m hm)
    exact ⟨x, hold hx, hid⟩

theorem Isolated.offer {msg : ChannelOpen} {ps : List PeerMsg}
    (hq : w.toMux = .channelOpen msg :: ps)
    (hs : ((w.mux.newChannel fun id => handleChannelOpen id msg).goto
      (.offer w.mux.chans.length)).Sound) : Isolated { w with
      mux := (w.mux.newChannel fun id => handleChannelOpen id msg).goto
        (.offer w.mux.chans.length)
      toMux := ps, peers := update w.peers w.mux.chans.length (.offering msg) } := by
  have hsub : ∀ {x : PeerMsg}, x ∈ ps → x ∈ w.toMux := fun hx => hq ▸ .tail _ hx
  have hkeep : ∀ k, ps.filterMap (PeerMsg.on k) = w.inb k := by
    intro k
    rw [inb, hq, filterMap_cons]
    rfl
  obtain ⟨-, hin, hout⟩ := h.fresh _ (Nat.le_refl _)
  refine h.newChannel (handleChannelOpen · msg) rfl rfl hs rfl nofun h.calm ?_
    ⟨?_, .unknown, ?_⟩ ?_ (fun _ _ => .inl) (fun _ _ _ => hsub) (fun _ => hsub)
  · rintro j (hj | hj | hj)
    · exact .inl (.inl hj)
    · exact .inl (.inr (.inl hj))
    · exact .inr ⟨(MuxPc.offer.inj hj).symm, fun _ => rfl⟩
  · simp only [update_self]
    change Endpoint.Funded _ _ (ps.filterMap _) (w.outb _)
    rw [hkeep, hin, hout]
    refine .start rfl rfl ?_ (h.windows msg (hq ▸ mem_cons_self)) (Nat.zero_le _) rfl
    exact Nat.le_trans (Window.win_add_le _ _) (Nat.le_of_eq (Nat.zero_add _))
  · simp only [update_self]
    change Endpoint.Staged _ _ (ps.filterMap _) (w.outb _) _ _
    rw [hkeep, hin, hout]
    exact .start rfl rfl rfl
      ((w.mux.listed_newChannel (handleChannelOpen · msg)).mpr (.inr rfl)) rfl rfl
      (fun _ => rfl) nofun (Nat.zero_le _)
  · exact fun j hj => ⟨update_of_ne hj _ _, hkeep j, rfl⟩

theorem Isolated.setPeer (he : w.mux.chans[k]? = some e) (p : PeerChan)
    (hm : w'.mux = w.mux) (hp : w'.peers = update w.peers k p)
    (hother : ∀ j, j ≠ k → w'.inb j = w.inb j ∧ w'.outb j = w.outb j)
    (hf : e.Funded p (w'.inb k) (w'.outb k))
    (hst : ∃ s, e.Staged p (w'.inb k) (w'.outb k) (w.mux.Listed k) s)
    (hasks : ∀ j msg, .channelOpen j msg ∈ w'.toPeer → .channelOpen j msg ∈ w.toPeer)
    (haddr : ∀ j i m, .chan j i m ∈ w'.toMux → .chan j i m ∈ w.toMux ∨ j = k ∧ i = e.ch.localId)
    (hwin : ∀ msg, .channelOpen msg ∈ w'.toMux → .channelOpen msg ∈ w.toMux) : w'.Isolated := by
  have hc : ∀ j, w'.mux.chans[j]? = if j = k then some e else w.mux.chans[j]? := by
    intro j
    rw [hm]
    by_cases hj : j = k
    · rw [if_pos hj, hj, he]
    · rw [if_neg hj]
  refine h.set he hc (by rw [hm]) rfl rfl (hm ▸ h.sound) (hm ▸ h.looping) (hm ▸ h.unfailed)
    (hm ▸ h.calm) (by rw [hm]; exact fun _ => id) ?_ ?_ hasks haddr hwin
  · rw [Linked, hp, update_self, hm]
    exact ⟨hf, hst⟩
  intro j hj
  obtain ⟨h₁, h₂⟩ := hother j hj
  rw [hp, update_of_ne hj, hm]
  exact ⟨rfl, h₁, h₂, .rfl⟩

theorem Isolated.hear {s : MuxSent} {ss : List MuxSent}
    (hq : w.toPeer = s :: ss) : Isolated { w with toPeer := ss, peers := w.told s } := by
  have hsub : ∀ {x : MuxSent}, x ∈ ss → x ∈ w.toPeer := fun hx => hq ▸ .tail _ hx
  have hskip : ∀ k, s.on k = none → ss.filterMap (MuxSent.on k) = w.outb k := by
    intro k hn
    rw [outb, hq, filterMap_cons, hn]
  have htake : ∀ {k m}, s.on k = some m → w.outb k = m :: ss.filterMap (MuxSent.on k) := by
    intro k m hs
    rw [outb, hq, filterMap_cons, hs]
  cases s with
  | chan k m =>
    have hout := htake (k := k) (if_pos rfl)
    have hlt : k < w.mux.chans.length := by
      by_contra hk
      have := (h.fresh k (Nat.le_of_not_lt hk)).2.2
      cases hout.symm.trans this
    have he := getElem?_eq_getElem hlt
    obtain ⟨hf, s, hst⟩ := h.chan k _ he
    rw [hout] at hf hst
    refine h.setPeer he _ rfl rfl ?_ hf.hear hst.hear (fun _ _ => hsub) (fun _ _ _ => .inl)
      (fun _ => id)
    exact fun j hj => ⟨rfl, hskip j (if_neg (Ne.symm hj))⟩
  | channelOpen k msg =>
    have hout := htake (k := k) (if_pos rfl)
    obtain ⟨e, he, hdir⟩ := h.asks k msg (hq ▸ mem_cons_self)
    obtain ⟨hf, s, hst⟩ := h.chan k e he
    rw [hout] at hf hst
    refine h.setPeer he _ rfl rfl ?_ hf.hearOpen (hst.hearOpen hdir) (fun _ _ => hsub)
      (fun _ _ _ => .inl) (fun _ => id)
    exact fun j hj => ⟨rfl, hskip j (if_neg (Ne.symm hj))⟩
  | openFailure i f =>
    refine ⟨h.sound, h.looping, h.unfailed, h.calm, h.offered, ?_, ?_,
      fun k msg hm => h.asks k msg (hsub hm), h.addressed, h.windows⟩
    · exact fun k e he => (h.chan k e he).congr rfl rfl (hskip k rfl) .rfl
    intro k hk
    obtain ⟨h₁, h₂, h₃⟩ := h.fresh k hk
    exact ⟨h₁, h₂, (hskip k rfl).trans h₃⟩

theorem Isolated.say {m : ChanMsg} {p : PeerChan} (hs : (w.peers k).say m = some p)
    (hn : ∀ i v n, m = .openConfirm i v n → minPacketLength ≤ n ∧ n ≤ 2 ^ 31) :
    Isolated { w with peers := update w.peers k p,
                      toMux := w.toMux ++ [.chan k (w.peers k).id m] } := by
  have hlt : k < w.mux.chans.length := by
    by_contra hk
    rw [(h.fresh k (Nat.le_of_not_lt hk)).1, PeerChan.say] at hs
    split at hs <;> cases hs
  have he := getElem?_eq_getElem hlt
  obtain ⟨hf, s, hst⟩ := h.chan k _ he
  obtain ⟨hst', hid⟩ := hst.say hs hn
  have hin : ∀ j, (w.toMux ++ [PeerMsg.chan k (w.peers k).id m]).filterMap (PeerMsg.on j) =
      w.inb j ++ if k = j then [m] else [] := by
    intro j
    rw [inb, filterMap_append]
    congr 1
    by_cases hj : k = j <;> simp [PeerMsg.on, hj]
  refine h.setPeer he p rfl rfl ?_ ?_ ⟨s, ?_⟩ (fun _ _ => id) ?_ ?_
  · intro j hj
    rw [inb, hin, if_neg (Ne.symm hj), append_nil]
    exact ⟨rfl, rfl⟩
  · rw [inb, hin, if_pos rfl]
    exact hf.say hs
  · rw [inb, hin, if_pos rfl]
    exact hst'
  · intro j i x hx
    obtain hx | hx := mem_append.mp hx
    · exact .inl hx
    · cases mem_singleton.mp hx
      exact .inr ⟨rfl, hid⟩
  · intro msg hx
    obtain hx | hx := mem_append.mp hx
    · exact hx
    · cases mem_singleton.mp hx

theorem Isolated.send {x : PeerMsg} (hx : ∀ k i m, x ≠ .chan k i m)
    (hw : ∀ msg, x = .channelOpen msg → msg.peersWindow < 2 ^ 32) :
    Isolated { w with toMux := w.toMux ++ [x] } := by
  have hin : ∀ k, inb { w with toMux := w.toMux ++ [x] } k = w.inb k := by
    intro k
    rw [inb, filterMap_append, filterMap_cons]
    cases x with
    | chan j i m => exact absurd rfl (hx j i m)
    | _ => exact append_nil _
  refine ⟨h.sound, h.looping, h.unfailed, h.calm, h.offered, ?_, ?_, h.asks, ?_, ?_⟩
  · exact fun k e he => (h.chan k e he).congr rfl (hin k) rfl .rfl
  · intro k hk
    rw [hin k]
    exact h.fresh k hk
  · intro k i m hm
    obtain hm | hm := mem_append.mp hm
    · exact h.addressed k i m hm
    · exact absurd (mem_singleton.mp hm).symm (hx k i m)
  · intro msg hm
    obtain hm | hm := mem_append.mp hm
    · exact h.windows msg hm
    · exact hw msg (mem_singleton.mp hm).symm

end

variable [DecidableEq ι]

section

variable (h : w.Isolated)

include h

theorem Isolated.user {m : Mux ι} (he : w.mux.chans[k]? = some e)
    (hs : e.Steps a e' eff) (ha : a.user = true) (hm : m.Sound)
    (hc : m.chans = w.mux.chans.set k e') (hl : m.chanList = w.mux.chanList)
    (hp : m.pc = w.mux.pc) (hh : m.halted = false ∧ m.ctxDone = false)
    (hn : m.newChannels = w.mux.newChannels) (hq : m.incomingChannels = w.mux.incomingChannels) :
    Isolated { w with mux := m, toPeer := w.toPeer ++ (Mux.outOf k eff).toList } := by
  obtain ⟨hf, s, hst⟩ := h.chan k e he
  have hin : a.inbox = [] := by cases a <;> first | rfl | cases ha
  have hlisted : ∀ j, m.Listed j ↔ w.mux.Listed j := by
    intro j
    rw [Mux.Listed, Mux.Listed, hl]
  refine h.chanStep he hc hm hp hh hn hq hs.direction_eq (hs.frame ha).localId
    (fun j _ => hlisted j) (fun j => MuxSent.filterMap_outOf k j eff) ?_ ?_ ⟨s, ?_⟩
  · intro j msg hmem
    obtain rfl | ⟨x, rfl⟩ := hs.effect_user ha <;> simp [Mux.outOf] at hmem
  · exact Endpoint.Funded.step (by rwa [hin]) hs
  · rw [propext (hlisted k)]
    exact hst.user hs ha

theorem Isolated.run (hlen : w.mux.chanList.chans.length < 2 ^ 32)
    (hp : w.mux.pc.running = some k) (he : w.mux.chans[k]? = some e)
    (hs : e.step (.loop .comm) = some (e', eff)) :
    Isolated { w with mux := (w.mux.setChan k e').absorb eff,
                      toPeer := w.toPeer ++ (Mux.outOf k eff).toList } := by
  obtain ⟨hf, s, hst⟩ := h.chan k e he
  have hsteps := Endpoint.step_cases hs
  have hsound := (h.sound.run hlen hp he hsteps).1
  have htame := (h.sound.chan k e he).tame
  have hfund : e'.Funded (w.peers k) (w.inb k) (w.outb k ++ Effect.sends eff) :=
    Endpoint.Funded.step hf hsteps
  cases hl : e.loop with
  | nil =>
    rw [Endpoint.step, hl] at hs
    cases hs
  | cons op ops =>
    rw [Endpoint.step, hl] at hs
    obtain ⟨q, hq, hs⟩ := Option.map_eq_some_iff.mp hs
    cases hs
    have hnf := hst.no_fault hf htame hl hq
    have hperf := perform_cases hq
    have hstage := hst.perform hl hperf hnf
    obtain heff | heff | ⟨rfl, heff⟩ | ⟨f, -, heff⟩ := hperf.effect_cases
    iterate 2
      · rw [heff] at hsound hfund hstage ⊢
        exact h.chanStep he rfl hsound rfl h.calm rfl rfl hperf.localId_eq.2 hperf.localId_eq.1
          (fun j _ => .rfl) (fun j => MuxSent.filterMap_outOf k j _) (by simp [Mux.outOf]) hfund
          ⟨s, hstage _ fun _ => id⟩
    · rw [heff] at hsound hfund hstage ⊢
      have hk : w.mux.Listed k := h.sound.leaving k e hp he (hl ▸ mem_cons_self)
      have hslot := fun i j => h.sound.slot_remove hlen he hk (i := i) (k := j)
      refine h.chanStep he rfl hsound rfl h.calm rfl rfl hperf.localId_eq.2 hperf.localId_eq.1
        ?_ (fun j => MuxSent.filterMap_outOf k j _) (by simp [Mux.outOf]) hfund
        ⟨s, hstage _ fun hop => absurd rfl hop⟩
      exact fun j hj => exists_congr fun i => (hslot i j).trans (and_iff_left hj)
    · exact absurd heff (hnf f)

theorem Isolated.loopStep (hlen : w.mux.chanList.chans.length < 2 ^ 32)
    (hc : choice ≠ .halt) (hw : ∀ err, choice ≠ .wrote (some err))
    (hs : Mux.LoopStep w.mux choice m out) :
    Isolated { w with mux := m, toPeer := w.toPeer ++ out.toList } := by
  have hsound := h.sound.loopStep hlen hs
  -- the packet is done, or the next one may be read
  have hgoto : ∀ {m : Mux ι} {out : List MuxSent}, m.Sound → m.chans = w.mux.chans →
      m.chanList = w.mux.chanList → m.newChannels = w.mux.newChannels →
      m.incomingChannels = w.mux.incomingChannels →
      m.halted = false ∧ m.ctxDone = false → m.pc = .returned none ∨ m.pc = .top →
      (∀ k, out.filterMap (MuxSent.on k) = []) →
      Isolated { w with mux := m, toPeer := w.toPeer ++ out } := by
    intro m out hs hc hl hn hi hh hp hout
    refine h.goto hs hc hl ?_ ?_ hh ?_ out hout
    · obtain hp | hp := hp <;> rw [hp] <;> rfl
    · obtain hp | hp := hp <;> simp [hp]
    rintro j (hj | hj | hj)
    · exact .inl (hn ▸ hj)
    · exact .inr (.inl (hi ▸ hj))
    · obtain hp | hp := hp <;> rw [hp] at hj <;> cases hj
  have hleft : ∀ {q : MuxPc}, w.mux.pc = q → q.looping = false → False := by
    intro q hq hl
    have := h.looping
    rw [hq, hl] at this
    cases this
  cases hs with
  | @refuse _ i r hp ho ho' =>
    obtain rfl : r = none := by
      cases r with
      | none => rfl
      | some err => exact absurd rfl (hw err)
    refine hgoto hsound rfl rfl rfl rfl h.calm (.inl rfl) ?_
    intro k
    cases out with
    | none => rfl
    | some s =>
      cases s with
      | chan j x => exact absurd rfl (ho j x)
      | channelOpen j x => exact absurd rfl (ho' j x)
      | openFailure => rfl
  | @offer k hp hl =>
    refine h.goto hsound rfl rfl rfl (by simp [Mux.goto]) h.calm ?_ [] fun _ => rfl
    rintro j (hj | hj | hj)
    · exact .inl hj
    · obtain hj | hj := mem_append.mp hj
      · exact .inr (.inl hj)
      · exact .inr (.inr (by rw [hp, mem_singleton.mp hj]))
    · cases hj
  | request hp hl | response hp hl | handled hp he hl =>
    exact hgoto hsound rfl rfl rfl rfl h.calm (.inl rfl) fun _ => rfl
  | stopped hp hs =>
    rw [h.calm.1, h.calm.2] at hs
    obtain hs | hs := hs <;> cases hs
  | @run k e _ c e' eff hp he hch hs =>
    have hcomm : c = .comm := by
      cases choice with
      | comm => exact (Option.some.inj hch).symm
      | halt => exact absurd rfl hc
      | muxHalt =>
        rw [Mux.chanChoice, h.calm.1] at hch
        cases hch
      | ctx => cases hch
      | wrote r => cases hch
    subst hcomm
    exact h.run hlen hp he hs
  | again hp hr => exact hgoto hsound rfl rfl rfl rfl h.calm (.inr rfl) fun _ => rfl
  | leave hp ht => exact absurd hp (h.unfailed _)
  | closed hp he hl | drop hp he | closeQueues hp | closeConn hp | setErr hp =>
    exact (hleft hp rfl).elim

theorem Isolated.openChannel (hlen : w.mux.chanList.chans.length < 2 ^ 32) : Isolated { w with
      mux := { w.mux.newChannel Channel.openChannel with
        waiting := w.mux.chans.length :: w.mux.waiting }
      toPeer := w.toPeer ++ [.channelOpen w.mux.chans.length
        (Channel.openChannel (w.mux.chanList.add w.mux.chans.length).1).openMsg] } := by
  obtain ⟨hpeer, hin, hout⟩ := h.fresh _ (Nat.le_refl _)
  have houtb : ∀ j, outb { w with
      mux := { w.mux.newChannel Channel.openChannel with
        waiting := w.mux.chans.length :: w.mux.waiting }
      toPeer := w.toPeer ++ [.channelOpen w.mux.chans.length
        (Channel.openChannel (w.mux.chanList.add w.mux.chans.length).1).openMsg] } j =
      w.outb j ++ if w.mux.chans.length = j then
        [.openConfirm (w.mux.chanList.add w.mux.chans.length).1 channelWindowSize channelMaxPacket]
      else [] := by
    intro j
    rw [outb, filterMap_append]
    congr 1
    by_cases hj : w.mux.chans.length = j
    · simp only [MuxSent.on, hj, if_true, filterMap_cons, filterMap_nil]
      rfl
    · simp [MuxSent.on, hj]
  refine h.newChannel Channel.openChannel rfl rfl (h.sound.step hlen .openChannel) h.looping
    h.unfailed h.calm (fun j hj => .inl hj) ⟨?_, .unknown, ?_⟩ ?_ ?_ (fun _ _ _ => id)
    (fun _ => id)
  · change Endpoint.Funded _ (w.peers _) (w.inb _) _
    rw [hpeer, hin, houtb, if_pos rfl, hout]
    exact .start rfl rfl (Nat.le_refl _) (by decide) (by simp [PeerChan.unheard, grant]) rfl
  · change Endpoint.Staged _ (w.peers _) (w.inb _) _ _ _
    rw [hpeer, hin, houtb, if_pos rfl, hout]
    refine .start rfl rfl rfl ((w.mux.listed_newChannel Channel.openChannel).mpr (.inr rfl)) rfl rfl
      (by rintro ⟨⟩) ?_ (Nat.le_refl _)
    intro m hm
    rw [mem_singleton.mp hm]
    exact ⟨rfl, rfl⟩
  · intro j hj
    refine ⟨rfl, rfl, ?_⟩
    rw [houtb, if_neg (Ne.symm hj), append_nil]
  · intro j msg hm
    obtain hm | hm := mem_append.mp hm
    · exact .inl hm
    · cases mem_singleton.mp hm
      exact .inr ⟨rfl, fun _ => rfl⟩

theorem Isolated.mux (hg : Spares w (.mux a))
    (hu : Act.undisturbed (.mux a) = true) (hp : ∀ p, a ≠ .packet p)
    (hr : ∀ err, a ≠ .readError err) (hs : w.mux.Steps a m out) :
    Isolated { w with mux := m, toPeer := w.toPeer ++ out.toList } := by
  have hsound := h.sound.step hg.1 hs
  cases hs with
  | packet hp' hr' => exact absurd rfl (hp _)
  | readError hp' => exact absurd rfl (hr _)
  | loop hs =>
    refine h.loopStep hg.1 hg.2 ?_ hs
    rintro err rfl
    cases hu
  | openChannel => exact h.openChannel hg.1
  | abandon hk | takeRequest hq | takeResponse hq =>
    exact h.goto hsound rfl rfl h.looping h.unfailed h.calm (fun _ => id) [] fun _ => rfl
  | @decide k e e' msg _ ha hk he hd =>
    obtain ⟨hf, s, hst⟩ := h.chan k e he
    obtain ⟨x, hx, hdir⟩ := h.offered k (.inl hk)
    cases he.symm.trans hx
    refine h.chanStep he rfl hsound rfl h.calm rfl rfl ?_ hd.frame.localId (fun j _ => .rfl)
      (fun j => MuxSent.filterMap_decided k j msg) ?_ ?_ ⟨s, hst.decides hdir hd⟩
    · cases hd <;> rfl
    · intro j x hx
      cases msg <;> simp at hx
    refine hf.decides hd ?_
    intro x hx hz
    have hdec : e.ch.decided = false := by cases hd <;> assumption
    obtain ⟨hs, ho, hc, -, hg', -⟩ := hst.undecided hdir hdec
    subst hs
    exact ⟨hc, (PeerPhase.exec_next_of_unknown hst.said).1, (hst.unknown rfl).1, ho, hg'⟩
  | opened hk he hs =>
    rw [Mux.absorb_user hs rfl] at hsound ⊢
    exact h.user he hs rfl hsound rfl rfl rfl h.calm rfl rfl
  | chan ha ho he hs =>
    rw [Mux.absorb_user hs ha] at hsound ⊢
    exact h.user he hs ha hsound rfl rfl rfl h.calm rfl rfl
  | @takeChannel k ks hq =>
    refine h.goto hsound rfl rfl h.looping h.unfailed h.calm ?_ [] fun _ => rfl
    rintro j (hj | hj | hj)
    · obtain rfl | hj := mem_cons.mp hj
      · exact .inr (.inl (hq ▸ mem_cons_self))
      · exact .inl hj
    · exact .inr (.inl (hq ▸ .tail _ hj))
    · exact .inr (.inr hj)
  | halt => cases hu
  | cancel => cases hu

theorem Isolated.deliver (hlen : w.mux.chanList.chans.length < 2 ^ 32)
    {p : PeerMsg} {ps : List PeerMsg} (hq : w.toMux = p :: ps) (hp : w.mux.pc = .top) :
    Isolated { w with mux := w.mux.onePacket p.packet, toMux := ps,
                      peers := w.placed (w.mux.onePacket p.packet) p } := by
  have hsound : (w.mux.onePacket p.packet).Sound :=
    h.sound.reads hlen hp (w.mux.onePacket_cases p.packet)
  have hsub : ∀ {x : PeerMsg}, x ∈ ps → x ∈ w.toMux := fun hx => hq ▸ .tail _ hx
  -- a packet that is for no channel
  have hkeep : (∀ k, p.on k = none) → ∀ k, ps.filterMap (PeerMsg.on k) = w.inb k := by
    intro hn k
    rw [inb, hq, filterMap_cons, hn k]
  have hgoto : ∀ {q : MuxPc}, (∀ k, p.on k = none) → (w.mux.goto q).Sound → q.looping = true →
      (∀ err, q ≠ .returned (some err)) → (∀ j, q ≠ .offer j) →
      Isolated { w with mux := w.mux.goto q, toMux := ps } := by
    intro q hn hs hl hu ho
    refine ⟨hs, hl, hu, h.calm, ?_, ?_, ?_, h.asks, fun k i m hm => h.addressed k i m (hsub hm),
      fun msg hm => h.windows msg (hsub hm)⟩
    · exact fun k hk => h.offered k (hk.imp id (Or.imp id fun hj => absurd hj (ho k)))
    · exact fun k e he => (h.chan k e he).congr rfl (hkeep hn k) rfl .rfl
    intro k hk
    obtain ⟨h₁, h₂, h₃⟩ := h.fresh k hk
    exact ⟨h₁, (hkeep hn k).trans h₂, h₃⟩
  cases p with
  | chan k i m =>
    obtain ⟨e, he, rfl⟩ := h.addressed k i m (hq ▸ mem_cons_self)
    obtain ⟨hf, s, hst⟩ := h.chan k e he
    have hin : w.inb k = m :: ps.filterMap (PeerMsg.on k) := by
      rw [inb, hq, filterMap_cons]
      simp [PeerMsg.on]
    rw [hin] at hf hst
    have hlisted : w.mux.Listed k := by
      refine hst.listed.resolve_right ?_
      rintro rfl
      obtain ⟨s', hs', -⟩ := exec_cons_some hst.said
      cases hs'
    have hslot : w.mux.chanList.getChan e.ch.localId = some k := by
      obtain ⟨i, hi⟩ := hlisted
      rw [ChanList.getChan_eq hlen, ((h.sound.chan k e he).listed i hi).1, hi]
    have hmux : w.mux.onePacket (PeerMsg.packet (.chan k e.ch.localId m)) = w.mux.deliver k m := by
      simp only [PeerMsg.packet, Mux.onePacket, hslot]
    have hloop : e.loop = [] := h.sound.loop_nil (by rw [hp]; rfl) he
    have hlaw := hst.lawful m mem_cons_self
    rw [hmux] at hsound ⊢
    refine h.set he (Mux.getElem?_deliver he m) ?_ rfl rfl hsound rfl (by simp [Mux.deliver])
      h.calm ?_ ⟨?_, hst.receive⟩ ?_ (fun _ _ => id) (fun j i x hx => .inl (hsub hx))
      (fun msg hm => hsub hm)
    · simp [Mux.deliver]
    · exact fun j hj => hj.imp id (Or.imp id (by rintro ⟨⟩))
    · have := hf.step (a := .deliver m) (.deliver hloop hlaw.payloadLength_le)
      rw [show Effect.sends none = [] from rfl, append_nil] at this
      exact this
    · intro j hj
      refine ⟨rfl, ?_, rfl, .rfl⟩
      rw [inb, inb, hq, filterMap_cons]
      simp [PeerMsg.on, Ne.symm hj]
  | channelOpen msg =>
    have hnone : ∀ k, PeerMsg.on k (.channelOpen msg) = none := fun _ => rfl
    simp only [PeerMsg.packet, Mux.onePacket] at hsound ⊢
    split at hsound
    · rename_i hr
      have hlt : ¬ w.mux.chans.length < (w.mux.goto (.refuse msg.peersId)).chans.length :=
        Nat.lt_irrefl _
      rw [if_pos hr, placed, if_neg hlt]
      exact hgoto hnone hsound rfl (by simp) (by simp)
    · rename_i hr
      rw [if_neg hr, placed, if_pos (by simp [Mux.newChannel, Mux.goto])]
      exact h.offer hq hsound
  | «global» msg =>
    cases msg with
    | request r | response r => exact hgoto (fun _ => rfl) hsound rfl (by simp) (by simp)

theorem Isolated.step (hu : a.undisturbed = true) (hg : Spares w a)
    (hs : w.step a = some w') : w'.Isolated := by
  cases a with
  | mux a =>
    obtain ⟨hp, hr, hs⟩ : (∀ p, a ≠ .packet p) ∧ (∀ err, a ≠ .readError err) ∧
        (w.mux.step a).map (fun (m, out) =>
          { w with mux := m, toPeer := w.toPeer ++ out.toList }) = some w' := by
      cases a with
      | packet | readError => cases hs
      | _ => exact ⟨by simp, by simp, hs⟩
    obtain ⟨⟨m, out⟩, hm, rfl⟩ := Option.map_eq_some_iff.mp hs
    exact h.mux hg hu hp hr (Mux.step_cases hm)
  | deliver =>
    simp only [World.step] at hs
    split at hs
    · cases hs
    rename_i p ps hq
    obtain ⟨⟨m, out⟩, hm, rfl⟩ := Option.map_eq_some_iff.mp hs
    obtain ⟨hp, ⟨⟩⟩ := of_guard hm
    exact h.deliver hg.1 hq hp
  | hear =>
    simp only [World.step] at hs
    split at hs
    · cases hs
    rename_i s ss hq
    cases hs
    exact h.hear hq
  | say k m =>
    obtain ⟨p, hp, rfl⟩ := Option.map_eq_some_iff.mp hs
    refine h.say hp ?_
    rintro i v n rfl
    exact hg.2
  | offer msg =>
    obtain ⟨hw, rfl⟩ := of_guard hs
    refine h.send nofun ?_
    intro x hx
    cases hx
    exact hw
  | «global» msg =>
    cases hs
    refine h.send nofun ?_
    intro x hx
    cases hx

end

/-- While no `select` of the packet loop takes the stop of a channel's Halter, no packet of the peer
is an error for `onePacket`, the loop goes on, and only its own CLOSE closes a channel. -/
theorem onePacket_never_fails (as : List (Act ι)) (hu : ∀ a ∈ as, a.undisturbed = true)
    (hg : Along step Spares start as) (h : exec step start as = some w) :
    w.mux.pc.looping = true ∧ (∀ err, w.mux.pc ≠ .returned (some err)) ∧
      ∀ (k : Nat) (e : Endpoint ι), w.mux.chans[k]? = some e → e.ch.msg.closed = true →
        .received .close ∈ e.log := by
  have hw : w.Isolated := by
    refine run_invariant (I := Isolated)
      (G := fun w a => a.undisturbed = true ∧ Spares w a) ?_ isolated_start
      (along_and (along_of_forall fun a ha _ => hu a ha) hg) h
    exact fun w a w' hw hg hs => hw.step hg.1 hg.2 hs
  refine ⟨hw.looping, hw.unfailed, ?_⟩
  intro k e he hc
  obtain ⟨-, s, hst⟩ := hw.chan k e he
  exact hst.closed (.inl hc)

def accepting (k : Nat) : List (Act Unit) :=
  [.offer ⟨k, 2 ^ 15, 2 ^ 15⟩, .deliver, .mux (.loop .comm), .mux (.loop .comm), .mux .takeChannel,
    .mux (.accept k), .hear]

def crossing : List (Act Unit) :=
  accepting 0 ++ accepting 1 ++ [.say 0 (.request "signal" false []),
    .mux (.chan 0 (.call () .close)), .mux (.chan 0 (.run () .comm)),
    .mux (.chan 0 (.run () .comm)), .mux (.chan 0 (.run () .comm)),
    .mux (.chan 0 (.run () .comm)), .deliver]

def answered : List (Act Unit) :=
  crossing ++ replicate 3 (.mux (.loop .comm)) ++ [.hear, .say 0 .close, .deliver] ++
    replicate 12 (.mux (.loop .comm))

theorem onePacket_never_fails_answered :
    ∃ w, exec step start answered = some w ∧ w.mux.chanList.chans = [none, some 1] ∧
      w.mux.pc.looping = true ∧ (∀ err, w.mux.pc ≠ .returned (some err)) ∧
        ∀ (k : Nat) (e : Endpoint Unit), w.mux.chans[k]? = some e → e.ch.msg.closed = true →
          .received .close ∈ e.log :=
  ⟨_, rfl, rfl, onePacket_never_fails answered (by decide) (by decide +kernel) rfl⟩

/-- The request ends the packet loop when its `select` takes the stop that the close has left
behind, and the other channel is closed with it. -/
theorem onePacket_fails_on_crossing :
    (∀ a ∈ crossing, a.undisturbed = true) ∧
      (∃ w, exec step start (crossing ++ [.mux (.loop .halt)]) = some w ∧
        w.mux.pc = .returned (some .eof)) ∧
      ∃ w e, exec step start (crossing ++ .mux (.loop .halt) ::
          replicate 24 (.mux (.loop .comm))) = some w ∧
        w.mux.pc = .done ∧ w.mux.err = some .eof ∧ w.mux.chans[1]? = some e ∧
          e.ch.msg.closed = true ∧ .received .close ∉ e.log := by
  refine ⟨by decide, ⟨_, rfl, rfl⟩, _, _, rfl, rfl, rfl, rfl, rfl, ?_⟩
  decide

end World

end XCryptoSsh
