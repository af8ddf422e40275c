import XCryptoSsh.ChannelFlow

namespace XCryptoSsh
set_option autoImplicit true

namespace Endpoint

open Op Channel
open Machine

variable {ι : Type} [Fintype ι] {e e₀ : Endpoint ι}

/-- An endpoint before its first packet: a channel that was announced to the peer, or one that was
accepted. -/
inductive Fresh : Endpoint ι → Prop where
  | outbound (localId : Nat) : Fresh (start (openChannel localId) false [])
  | inbound (localId : Nat) (msg : ChannelOpen) :
      Fresh (start (Channel.handleChannelOpen localId msg).accept.1 true
        [.sent (Channel.handleChannelOpen localId msg).accept.2])

theorem Fresh.accounted (h : Fresh e) : Accounted e ∧ e.total = channelWindowSize := by
  have ht : tally Pc.taken (fun _ : ι => Pc.idle) = 0 := tally_eq_zero fun _ => rfl
  have hw : e.total = channelWindowSize := by
    cases h <;>
      simp [total, start, openChannel, newChannel, Channel.handleChannelOpen,
        Channel.accept, unread, ht]
  have hl : e.loop = [] := by cases h <;> rfl
  exact ⟨⟨by simp [hl], by simp [hl], Nat.le_of_eq hw⟩, hw⟩

variable [DecidableEq ι]

def discarded : Endpoint ι → List (Act ι) → Nat
  | _, [] => 0
  | e, a :: as => e.discards a + match e.next a with
    | some e' => discarded e' as
    | none => 0

/-- No packet is half handled, and no read has bytes that it has not credited. -/
def Quiescent (e : Endpoint ι) : Prop := e.loop = [] ∧ ∀ i, (e.gos i).taken = 0

theorem total_add_discarded (hi : Accounted e₀) (h : exec next e₀ as = some e) :
    e.total + discarded e₀ as = e₀.total := by
  induction as generalizing e₀ with
  | nil =>
    cases h
    rfl
  | cons a as ih =>
    obtain ⟨e₁, h₁, h⟩ := exec_cons_some h
    obtain ⟨⟨e₁', eff⟩, hs, rfl⟩ := Option.map_eq_some_iff.mp h₁
    have hs := step_cases hs
    have ht := hs.total hi
    have hr := ih (hi.step hs) h
    simp only [discarded, h₁]
    omega

/-- In a quiescent state the window and the unread bytes make up the initial window exactly when
no payload was thrown away. -/
theorem myWindow_add_unread_iff (as : List (Act ι)) (hf : Fresh e₀)
    (h : exec next e₀ as = some e) (hq : Quiescent e) :
    e.ch.myWindow + e.ch.unread = channelWindowSize ↔ discarded e₀ as = 0 := by
  obtain ⟨hi, hw⟩ := hf.accounted
  have ht := total_add_discarded hi h
  rw [hw] at ht
  simp only [total, hq.1, weigh_nil, tally_eq_zero hq.2] at ht
  omega

/-- Whatever the peer sends, the channel buffers no more than its window. -/
theorem unread_le_window (as : List (Act ι)) (hf : Fresh e₀) (h : exec next e₀ as = some e) :
    e.ch.myWindow + e.ch.unread ≤ channelWindowSize := by
  obtain ⟨hi, hw⟩ := hf.accounted
  have ht := total_add_discarded hi h
  rw [hw, total] at ht
  omega

def discardingSchedule : List (Act Unit) :=
  [.deliver (.data (some 2) 1 [7]), .loop .comm, .loop .comm]

/-- The byte is debited from the window and thrown away: nothing is left to read, and the window is
not what it was. -/
theorem myWindow_leaks :
    ∃ e : Endpoint Unit,
      exec next (start (openChannel 0) false []) discardingSchedule = some e ∧
        Quiescent e ∧ e.ch.unread = 0 ∧ e.ch.myWindow + 1 = channelWindowSize :=
  ⟨_, rfl, ⟨rfl, fun _ => rfl⟩, rfl, rfl⟩

theorem unread_le_window_discarding :
    ∃ e : Endpoint Unit,
      exec next (start (openChannel 0) false []) discardingSchedule = some e ∧
        e.ch.myWindow + e.ch.unread ≤ channelWindowSize :=
  ⟨_, rfl, unread_le_window discardingSchedule (.outbound 0) rfl⟩

/-- Three bytes of extended data with code 1 arrive, and the user reads two of them. -/
def readingSchedule : List (Act Unit) :=
  [.deliver (.data (some 1) 3 [7, 8, 9]), .loop .comm, .loop .comm, .call () (.read 1 2),
    .run () .comm, .run () .comm, .run () .comm]

theorem myWindow_add_unread_reading :
    ∃ e : Endpoint Unit,
      exec next (start (Channel.handleChannelOpen 0 ⟨0, 0, 32768⟩).accept.1 true
          [.sent (Channel.handleChannelOpen 0 ⟨0, 0, 32768⟩).accept.2]) readingSchedule = some e ∧
            e.ch.unread = 1 ∧ e.ch.myWindow + e.ch.unread = channelWindowSize := by
  refine ⟨_, rfl, rfl, ?_⟩
  exact (myWindow_add_unread_iff readingSchedule (.inbound 0 ⟨0, 0, 32768⟩) rfl
    ⟨rfl, by decide⟩).mpr rfl

end Endpoint

end XCryptoSsh
