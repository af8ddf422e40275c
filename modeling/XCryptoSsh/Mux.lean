import Mathlib.Data.List.ReduceOption
import XCryptoSsh.Endpoint
import XCryptoSsh.GlobalRequests
import XCryptoSsh.Messages

namespace XCryptoSsh
open List
set_option autoImplicit true

open Go (Bytes u32)
open Machine (exec of_guard)

/-- A slot is indexed by the local id of its channel. A channel is named by its place among all
channels that were ever created. -/
structure ChanList where
  chans : List (Option Nat)
  deriving DecidableEq, Repr

namespace ChanList

section

variable (c : ChanList)

/-- The first free slot is used again. -/
def add (ch : Nat) : Nat × ChanList :=
  match c.chans.findIdx? Option.isNone with
  | some i => (u32 i, ⟨c.chans.set i (some ch)⟩)
  | none => (u32 c.chans.length, ⟨c.chans ++ [some ch]⟩)

def slot (i : Nat) : Option Nat := c.chans[i]?.join

def getChan (id : Nat) : Option Nat :=
  if id < u32 c.chans.length then c.slot id else none

def remove (id : Nat) : ChanList :=
  if id < u32 c.chans.length then ⟨c.chans.set id none⟩ else c

def dropAll : List Nat × ChanList := (c.chans.reduceOption, ⟨[]⟩)

theorem add_cases (ch : Nat) :
    ∃ i, (c.add ch).1 = u32 i ∧ i ≤ c.chans.length ∧ c.slot i = none ∧
      ((i < c.chans.length ∧ (c.add ch).2 = ⟨c.chans.set i (some ch)⟩) ∨
        i = c.chans.length ∧ (c.add ch).2 = ⟨c.chans ++ [some ch]⟩) := by
  unfold add
  cases hf : c.chans.findIdx? Option.isNone with
  | some i =>
    obtain ⟨hi, hn, -⟩ := findIdx?_eq_some_iff_getElem.mp hf
    have hs : c.slot i = none := by
      rw [slot, getElem?_eq_getElem hi, Option.join_some]
      exact Option.isNone_iff_eq_none.mp hn
    exact ⟨i, rfl, Nat.le_of_lt hi, hs, .inl ⟨hi, rfl⟩⟩
  | none => exact ⟨c.chans.length, rfl, Nat.le_refl _, by simp [slot], .inr ⟨rfl, rfl⟩⟩

theorem slot_add (ch : Nat) :
    ∃ i, (c.add ch).1 = u32 i ∧ i ≤ c.chans.length ∧ c.slot i = none ∧
      (c.add ch).2.slot i = some ch ∧ ∀ j, j ≠ i → (c.add ch).2.slot j = c.slot j := by
  obtain ⟨i, hid, hi, hs, ⟨hlt, ha⟩ | ⟨rfl, ha⟩⟩ := c.add_cases ch
  · refine ⟨i, hid, hi, hs, by simp [slot, ha, hlt], ?_⟩
    intro j hj
    simp [slot, ha, Ne.symm hj]
  refine ⟨_, hid, hi, hs, by simp [slot, ha], ?_⟩
  intro j hj
  obtain hlt | hgt := Nat.lt_or_gt_of_ne hj
  · rw [slot, slot, ha, getElem?_append_left hlt]
  · rw [slot, slot, ha, getElem?_eq_none (by simp; omega),
      getElem?_eq_none (Nat.le_of_lt hgt)]

theorem slot_remove (id j : Nat) :
    (c.remove id).slot j = c.slot j ∨ j = id ∧ (c.remove id).slot j = none := by
  unfold remove
  split
  · by_cases hj : j = id
    · subst hj
      refine .inr ⟨rfl, ?_⟩
      unfold slot
      rw [getElem?_set_self']
      cases c.chans[j]? <;> rfl
    · left
      simp [slot, Ne.symm hj]
  · exact .inl rfl

end

theorem slot_remove_self {c : ChanList} (hc : c.chans.length < 2 ^ 32) (id : Nat) :
    (c.remove id).slot id = none := by
  unfold remove
  rw [Go.u32_of_lt hc]
  split
  · rename_i h
    simp [slot, h]
  rename_i h
  rw [slot, getElem?_eq_none (Nat.le_of_not_lt h)]
  rfl

theorem slot_remove_of_ne {c : ChanList} {id j : Nat} (h : j ≠ id) :
    (c.remove id).slot j = c.slot j :=
  (c.slot_remove id j).resolve_right fun hj => h hj.1

theorem getChan_eq {c : ChanList} (hc : c.chans.length < 2 ^ 32) (id : Nat) :
    c.getChan id = c.slot id := by
  unfold getChan
  rw [Go.u32_of_lt hc]
  split
  · rfl
  rename_i h
  rw [slot, getElem?_eq_none (Nat.le_of_not_lt h)]
  rfl

theorem slot_of_getChan {c : ChanList} {id : Nat} (h : c.getChan id = some k) :
    c.slot id = some k := by
  unfold getChan at h
  split at h
  · exact h
  · cases h

theorem mem_dropAll {c : ChanList} : k ∈ c.dropAll.1 ↔ ∃ i, c.slot i = some k := by
  rw [dropAll, reduceOption_mem_iff, mem_iff_getElem?]
  simp only [slot, Option.join_eq_some_iff]

@[simp] theorem slot_dropAll (c : ChanList) (i : Nat) : c.dropAll.2.slot i = none := rfl

theorem nodup_dropAll {c : ChanList} (h : ∀ i j k, c.slot i = some k → c.slot j = some k → i = j) :
    c.dropAll.1.Nodup := by
  obtain ⟨chans⟩ := c
  induction chans with
  | nil => exact nodup_nil
  | cons x xs ih =>
    have hxs : (dropAll ⟨xs⟩).1.Nodup := by
      apply ih
      intro i j k hi hj
      have := h (i + 1) (j + 1) k hi hj
      omega
    cases x with
    | none => exact hxs
    | some k =>
      refine nodup_cons.mpr ⟨?_, hxs⟩
      intro hk
      obtain ⟨i, hi⟩ := mem_dropAll.mp hk
      have := h 0 (i + 1) k rfl hi
      omega

theorem reduceOption_set {xs : List (Option Nat)} (h : xs[i]? = some none) (k : Nat) :
    (xs.set i (some k)).reduceOption.Perm (k :: xs.reduceOption) := by
  induction xs generalizing i with
  | nil => cases h
  | cons x xs ih =>
    cases i with
    | zero =>
      cases h
      exact .refl _
    | succ i =>
      cases x with
      | none => exact ih h
      | some y => exact ((ih h).cons y).trans (.swap ..)

theorem dropAll_add (c : ChanList) (ch : Nat) :
    (c.add ch).2.dropAll.1.Perm (ch :: c.dropAll.1) := by
  obtain ⟨i, -, -, hs, ⟨hi, ha⟩ | ⟨-, ha⟩⟩ := c.add_cases ch
  · rw [ha]
    unfold slot at hs
    rw [List.getElem?_eq_getElem hi] at hs
    exact reduceOption_set (List.getElem?_eq_some_iff.mpr ⟨hi, hs⟩) ch
  · rw [ha, dropAll, List.reduceOption_append]
    exact List.perm_append_comm

theorem dropAll_remove (c : ChanList) (id : Nat) :
    c.remove id = c ∨ ∃ k, c.slot id = some k ∧
      c.dropAll.1.Perm (k :: (c.remove id).dropAll.1) := by
  unfold remove
  split
  · rename_i h
    have h : id < c.chans.length := Nat.lt_of_lt_of_le h (Nat.mod_le ..)
    have hset := set_getElem_self h
    have hs : c.slot id = c.chans[id] := by rw [slot, getElem?_eq_getElem h, Option.join_some]
    cases hx : c.chans[id] with
    | none =>
      rw [hx] at hset
      exact .inl (congrArg mk hset)
    | some k =>
      refine .inr ⟨k, hs.trans hx, ?_⟩
      have hp := reduceOption_set (getElem?_set_self h (a := none)) k
      rwa [set_set, ← hx, hset] at hp
  · exact .inl rfl

def size (c : ChanList) : Nat := c.dropAll.1.length

theorem size_add_le (c : ChanList) (ch : Nat) : (c.add ch).2.size ≤ c.size + 1 :=
  (c.dropAll_add ch).length_eq.le

theorem size_remove_le (c : ChanList) (id : Nat) : (c.remove id).size ≤ c.size := by
  obtain h | ⟨k, -, hp⟩ := c.dropAll_remove id
  · rw [h]
  · rw [size, size, hp.length_eq]
    exact Nat.le_succ _

end ChanList

/-- `chanList` with the offset of its ids, which is zero unless `debugMux` is set. -/
structure OffsetChanList where
  list : ChanList
  offset : UInt32
  deriving DecidableEq, Repr

namespace OffsetChanList

section

variable (c : OffsetChanList)

def add (ch : Nat) : UInt32 × OffsetChanList :=
  (.ofNat (c.list.add ch).1 + c.offset, { c with list := (c.list.add ch).2 })

def getChan (id : UInt32) : Option Nat := c.list.getChan (id - c.offset).toNat

def remove (id : UInt32) : OffsetChanList :=
  { c with list := c.list.remove (id - c.offset).toNat }

def dropAll : List Nat × OffsetChanList := (c.list.dropAll.1, { c with list := c.list.dropAll.2 })

end

inductive Act where
  | add (ch : Nat)
  | getChan (id : UInt32)
  | remove (id : UInt32)
  | dropAll
  deriving DecidableEq, Repr

/-- A call, with the channels that were added and not removed since, and the ids they were given. -/
def next (s : OffsetChanList × List (UInt32 × Nat)) : Act → OffsetChanList × List (UInt32 × Nat)
  | .add ch => ((s.1.add ch).2, ((s.1.add ch).1, ch) :: s.2)
  | .getChan _ => s
  | .remove id => (s.1.remove id, s.2.filter (·.1 ≠ id))
  | .dropAll => (s.1.dropAll.2, [])

def step (s : OffsetChanList × List (UInt32 × Nat)) (a : Act) :
    Option (OffsetChanList × List (UInt32 × Nat)) :=
  if (next s a).1.list.chans.length < 2 ^ 32 then some (next s a) else none

structure Names (c : OffsetChanList) (es : List (UInt32 × Nat)) : Prop where
  slots : c.list.chans.length < 2 ^ 32
  nodup : (es.map Prod.fst).Nodup
  slot : ∀ id k, c.list.slot (id - c.offset).toNat = some k ↔ (id, k) ∈ es
  perm : c.list.dropAll.1.Perm (es.map Prod.snd)

theorem toNat_sub_inj {id id' o : UInt32} (h : (id - o).toNat = (id' - o).toNat) : id = id' := by
  have h := congrArg (· + o) (UInt32.toNat_inj.mp h)
  simpa only [UInt32.sub_add_cancel] using h

namespace Names

variable (h : Names c es)
include h

theorem add (ch : Nat) (hlen : (c.add ch).2.list.chans.length < 2 ^ 32) :
    Names (c.add ch).2 (((c.add ch).1, ch) :: es) := by
  obtain ⟨i, hid, hi, hs, hnew, hold⟩ := c.list.slot_add ch
  have hi : i < 2 ^ 32 := Nat.lt_of_le_of_lt hi h.slots
  have hi' : ((c.add ch).1 - c.offset).toNat = i := by
    rw [OffsetChanList.add, UInt32.add_sub_cancel, hid, Go.u32_of_lt hi]
    exact UInt32.toNat_ofNat_of_lt hi
  have hfree : ∀ k, ((c.add ch).1, k) ∉ es := by
    intro k hk
    rw [← h.slot, hi', hs] at hk
    cases hk
  refine ⟨hlen, nodup_cons.mpr ⟨?_, h.nodup⟩, ?_, ?_⟩
  · intro hm
    obtain ⟨⟨_, k⟩, hk, rfl⟩ := mem_map.mp hm
    exact hfree k hk
  · intro id k
    change (c.list.add ch).2.slot (id - c.offset).toNat = some k ↔ _
    by_cases he : id = (c.add ch).1
    · subst he
      simp [hi', hnew, hfree, eq_comm]
    · rw [hold _ fun e => he (toNat_sub_inj (e.trans hi'.symm)), h.slot]
      simp [he]
  · exact (c.list.dropAll_add ch).trans (h.perm.cons ch)

theorem remove (id : UInt32) (hlen : (c.remove id).list.chans.length < 2 ^ 32) :
    Names (c.remove id) (es.filter (·.1 ≠ id)) := by
  refine ⟨hlen, (filter_sublist.map _).nodup h.nodup, ?_, ?_⟩
  · intro id' k
    by_cases he : id' = id
    · subst he
      simp [OffsetChanList.remove, ChanList.slot_remove_self h.slots]
    · have hne : (id' - c.offset).toNat ≠ (id - c.offset).toNat := fun e => he (toNat_sub_inj e)
      simp [OffsetChanList.remove, ChanList.slot_remove_of_ne hne, h.slot, he]
  · obtain hr | ⟨k, hk, hp⟩ := c.list.dropAll_remove (id - c.offset).toNat
    · have hn := ChanList.slot_remove_self h.slots (id - c.offset).toNat
      rw [hr] at hn
      rw [OffsetChanList.remove, hr, filter_eq_self.mpr]
      · exact h.perm
      · rintro ⟨id', k⟩ hk
        rw [← h.slot] at hk
        rw [decide_eq_true_eq]
        rintro rfl
        exact nomatch hn.symm.trans hk
    · have hes : es.Perm ((id, k) :: es.filter (·.1 ≠ id)) := by
        refine (perm_ext_iff_of_nodup h.nodup.of_map
          (nodup_cons.mpr ⟨by simp, h.nodup.of_map.filter _⟩)).mpr ?_
        rintro ⟨id', k'⟩
        by_cases he : id' = id
        · subst he
          simp [← h.slot, hk, eq_comm]
        · simp [he]
      exact (perm_cons k).mp (hp.symm.trans (h.perm.trans (hes.map Prod.snd)))

end Names

theorem Names.step (h : Names s.1 s.2) (hs : OffsetChanList.step s a = some s') :
    Names s'.1 s'.2 := by
  obtain ⟨hlen, ⟨⟩⟩ := Option.ite_none_right_eq_some.mp hs
  cases a with
  | add ch => exact h.add ch hlen
  | getChan => exact h
  | remove id => exact h.remove id hlen
  | dropAll => exact ⟨hlen, nodup_nil, by simp [next, OffsetChanList.dropAll], .refl _⟩

/-- The list is a partial map: `add` gives an id that no other channel has, `getChan` finds the
channel that was given an id, and `dropAll` returns each one. -/
theorem ids_unique (h : exec step (⟨⟨[]⟩, o⟩, []) l = some s) :
    (s.2.map Prod.fst).Nodup ∧ (∀ id k, s.1.getChan id = some k ↔ (id, k) ∈ s.2) ∧
      s.1.dropAll.1.Perm (s.2.map Prod.snd) := by
  have hn : Names s.1 s.2 := by
    refine Machine.run_invariant (G := fun _ _ => True) (I := fun s => Names s.1 s.2)
      (fun _ _ _ hi _ hs => hi.step hs) ?_
      (Machine.along_of_forall fun _ _ _ => trivial) h
    exact ⟨Nat.two_pow_pos _, nodup_nil, by simp [ChanList.slot], .refl _⟩
  refine ⟨hn.nodup, fun id k => ?_, hn.perm⟩
  rw [getChan, ChanList.getChan_eq hn.slots, hn.slot]

/-- The offset makes the second id wrap around, and the first one is given again. -/
theorem ids_unique_wrapped : ∃ l s, exec step (⟨⟨[]⟩, 4294967295⟩, []) l = some s ∧
    s.2 = [(4294967295, 9), (0, 8)] ∧ s.1.getChan 0 = some 8 ∧ s.1.getChan 4294967295 = some 9 := by
  have h : exec step (⟨⟨[]⟩, 4294967295⟩, [])
      [.add 7, .add 8, .remove 4294967295, .remove 5, .add 9] =
        some (⟨⟨[some 9, some 8]⟩, 4294967295⟩, [(4294967295, 9), (0, 8)]) := by decide
  obtain ⟨-, hget, -⟩ := ids_unique h
  exact ⟨_, _, h, rfl, (hget 0 8).mpr (by decide), (hget _ 9).mpr (by decide)⟩

end OffsetChanList

structure GlobalResponse where
  ok : Bool
  data : Bytes
  deriving DecidableEq, Repr

inductive GlobalMsg where
  | request (r : GlobalRequestMsg)
  | response (r : GlobalResponse)
  deriving DecidableEq, Repr

/-- A packet as `onePacket` tells packets apart, with the outcome of its decoding. One that is no
CHANNEL_OPEN and not global is for a channel, and needs five bytes. -/
inductive MuxMsg where
  | channelOpen (msg : Except Err ChannelOpen)
  | global (msg : Except Err GlobalMsg)
  | short (tag : UInt8)
  | chan (id : Nat) (m : ChanMsg)
  deriving DecidableEq, Repr

/-- Where the packet loop stands. `returned` is the return of `onePacket`; from `drop` on the loop
has been left. -/
inductive MuxPc where
  | top
  | refuse (peersId : Nat)
  | offer (k : Nat)
  | request (r : GlobalRequestMsg)
  | response (r : GlobalResponse)
  | handle (k : Nat)
  | returned (r : Option Err)
  | drop (e : Err) (todo : List Nat)
  | close (e : Err) (k : Nat) (todo : List Nat)
  | closeConn (e : Err)
  | setErr (e : Err)
  | done
  | panicked (text : String)
  deriving DecidableEq, Repr

def MuxPc.running : MuxPc → Option Nat
  | .handle k | .close _ k _ => some k
  | _ => none

def MuxPc.looping : MuxPc → Bool
  | .drop .. | .close .. | .closeConn _ | .setErr _ | .done | .panicked _ => false
  | _ => true

/-- The case a `select` takes, where `halt` is the stop of the Halter of the channel, or the result
of a write. -/
inductive LoopChoice where
  | comm
  | halt
  | muxHalt
  | ctx
  | wrote (r : Option Err)
  deriving DecidableEq, Repr

inductive MuxSent where
  | chan (k : Nat) (m : ChanMsg)
  | channelOpen (k : Nat) (msg : ChannelOpen)
  | openFailure (peersId : Nat) (failure : OpenFailure)
  deriving DecidableEq, Repr

/-- A mux with every channel it has created. `newChannels` were received from `incomingChannels`,
`waiting` are those whose `openChannel` has not returned, and `ctxDone` is of the context of the
packet loop. -/
structure Mux (ι : Type) where
  chans : List (Endpoint ι)
  chanList : ChanList
  incomingChannels : Queue Nat
  newChannels : List Nat
  waiting : List Nat
  globalResponses : Queue GlobalResponse
  incomingRequests : Queue GlobalRequestMsg
  err : Option Err
  halted : Bool
  ctxDone : Bool
  connClosed : Bool
  pc : MuxPc

/-- `RejectionReason` of a CHANNEL_OPEN that the mux refuses on its own. -/
def connectionFailed : Nat := 2

def invalidRequest : OpenFailure := ⟨connectionFailed, "invalid request", "en_US.UTF-8"⟩

def Endpoint.Act.user : Endpoint.Act ι → Bool
  | .loop _ | .deliver _ => false
  | _ => true

def Channel.reject (c : Channel) : Channel := { c with decided := true, idleStop := true }

namespace Endpoint

def receive (e : Endpoint ι) (msg : ChanMsg) : Endpoint ι :=
  { e with loop := Op.handlePacket msg, log := e.log ++ [.received msg] }

def answer (e : Endpoint ι) (c : Channel) (opened : Bool) (msg : ChanMsg) :
    Endpoint ι × Option ChanMsg :=
  match c.writePacket msg with
  | .error _ => ({ e with ch := c }, none)
  | .ok c' => ({ e with ch := c', opened := opened, log := e.log ++ [.sent msg] }, some msg)

/-- `Accept`; nothing happens on a channel that is decided. -/
def accept (e : Endpoint ι) : Option (Endpoint ι × Option ChanMsg) :=
  if e.ch.decided then none else some (e.answer e.ch.accept.1 true e.ch.accept.2)

/-- `Reject`; the channel stays in the list of channels. -/
def reject (e : Endpoint ι) (f : OpenFailure) : Option (Endpoint ι × Option ChanMsg) :=
  if e.ch.decided then none else some (e.answer e.ch.reject e.opened (.openFailure f))

end Endpoint

namespace Mux

/-- `packet` and `readError` are the results of the read in `onePacket`, `openChannel` is the call
up to its send, and `abandon` its return when its context is done or the mux is stopped. -/
inductive Act (ι : Type) where
  | packet (p : MuxMsg)
  | readError (e : Err)
  | loop (choice : LoopChoice)
  | openChannel
  | abandon (k : Nat)
  | takeChannel
  | accept (k : Nat)
  | reject (k : Nat) (f : OpenFailure)
  | chan (k : Nat) (a : Endpoint.Act ι)
  | takeRequest
  | takeResponse
  | halt
  | cancel
  deriving DecidableEq, Repr

def newMux : Mux ι :=
  ⟨[], ⟨[]⟩, .empty, [], [], .empty, .empty, none, false, false, false, .top⟩

def setChan (m : Mux ι) (k : Nat) (e : Endpoint ι) : Mux ι := { m with chans := m.chans.set k e }

def goto (m : Mux ι) (pc : MuxPc) : Mux ι := { m with pc := pc }

def stopWaiting (m : Mux ι) (k : Nat) : Mux ι := { m with waiting := m.waiting.filter (· ≠ k) }

/-- `newChannel`, for a channel that is built from its local id. -/
def newChannel (m : Mux ι) (ch : Nat → Channel) : Mux ι :=
  { m with chans := m.chans ++ [.start (ch (m.chanList.add m.chans.length).1) false []],
           chanList := (m.chanList.add m.chans.length).2 }

def deliver (m : Mux ι) (k : Nat) (msg : ChanMsg) : Mux ι :=
  { m with chans := m.chans.modify k fun e => e.receive msg, pc := .handle k }

/-- The part of `onePacket` after the read, up to its first step that others can see. -/
def onePacket (m : Mux ι) : MuxMsg → Mux ι
  | .channelOpen (.error e) | .global (.error e) => m.goto (.returned (some e))
  | .channelOpen (.ok msg) =>
    if msg.maxPacketSize < minPacketLength ∨ msg.maxPacketSize > 2 ^ 31 then
      m.goto (.refuse msg.peersId)
    else
      (m.newChannel fun id => Channel.handleChannelOpen id msg).goto (.offer m.chans.length)
  | .global (.ok (.request r)) => m.goto (.request r)
  | .global (.ok (.response r)) => m.goto (.response r)
  | .short tag => m.goto (.returned (some (parseError tag)))
  | .chan id msg => match m.chanList.getChan id with
    | none => m.goto (.returned (some (Pair.errInvalidChannel id)))
    | some k => m.deliver k msg

/-- A `select` of the packet loop between a send and the stop of the mux or of its context. -/
def selectSend (m : Mux ι) (choice : LoopChoice) (q : Queue α) (size : Nat) (x : α)
    (store : Queue α → Mux ι) : Option (Mux ι) :=
  match choice with
  | .comm =>
    if q.items.length < size then
      some ((store { q with items := q.items ++ [x] }).goto (.returned none)) else none
  | .muxHalt => if m.halted then some (m.goto (.returned (some .eof))) else none
  | .ctx => if m.ctxDone then some (m.goto (.returned (some .eof))) else none
  | _ => none

def outOf (k : Nat) : Option Effect → Option MuxSent
  | some (.send msg) => some (.chan k msg)
  | _ => none

def absorb (m : Mux ι) : Option Effect → Mux ι
  | some (.remove id) => { m with chanList := m.chanList.remove id }
  | some (.fault (.err e)) => m.goto (.returned (some e))
  | some (.fault (.panic text)) => m.goto (.panicked text)
  | _ => m

def chanChoice (m : Mux ι) : LoopChoice → Option Choice
  | .comm => some .comm
  | .halt => some .halt
  | .muxHalt => if m.halted then some .muxHalt else none
  | _ => none

variable {ι : Type} [Fintype ι] [DecidableEq ι]

def runChan (m : Mux ι) (k : Nat) (next : MuxPc) (choice : LoopChoice) :
    Option (Mux ι × Option MuxSent) :=
  m.chans[k]?.bind fun e =>
    if e.loop = [] then some (m.goto next, none)
    else (m.chanChoice choice).bind fun c =>
      (e.step (.loop c)).map fun (e', eff) => ((m.setChan k e').absorb eff, outOf k eff)

def stepLoop (m : Mux ι) (choice : LoopChoice) : Option (Mux ι × Option MuxSent) :=
  match m.pc with
  | .top | .done | .panicked _ => none
  | .refuse peersId => match choice with
    | .wrote r =>
      some (m.goto (.returned r), if r = none then some (.openFailure peersId invalidRequest) else
        none)
    | _ => none
  | .offer k => (m.selectSend choice m.incomingChannels chanSize k
      fun q => { m with incomingChannels := q }).map (·, none)
  | .request r => (m.selectSend choice m.incomingRequests chanSize r
      fun q => { m with incomingRequests := q }).map (·, none)
  | .response r => (m.selectSend choice m.globalResponses 1 r
      fun q => { m with globalResponses := q }).map (·, none)
  | .handle k => m.runChan k (.returned none) choice
  | .returned none => some (m.goto .top, none)
  | .returned (some e) =>
    -- a timeout is not allowed to end the loop
    if e.isTimeout then some (m.goto .top, none)
    else some ({ m with pc := .drop e m.chanList.dropAll.1, chanList := m.chanList.dropAll.2 },
      none)
  | .drop e (k :: todo) => m.chans[k]?.map fun c =>
      ((m.setChan k { c with loop := Op.close }).goto (.close e k todo), none)
  | .close e k todo => m.runChan k (.drop e todo) choice
  | .drop e [] => some ({ m with
      incomingChannels := { m.incomingChannels with closed := true }
      incomingRequests := { m.incomingRequests with closed := true }
      globalResponses := { m.globalResponses with closed := true }
      pc := .closeConn e }, none)
  | .closeConn e => some ({ m with connClosed := true, pc := .setErr e }, none)
  | .setErr e => some ({ m with err := some e, pc := .done }, none)

def runUser (m : Mux ι) (k : Nat) (a : Endpoint.Act ι) : Option (Mux ι × Option MuxSent) :=
  m.chans[k]?.bind fun e =>
    (e.step a).map fun (e', eff) => ((m.setChan k e').absorb eff, outOf k eff)

/-- `Accept` and `Reject` are called on channels that were received. -/
def onNewChannel (m : Mux ι) (k : Nat) (f : Endpoint ι → Option (Endpoint ι × Option ChanMsg)) :
    Option (Mux ι × Option MuxSent) :=
  if k ∈ m.newChannels then
    (m.chans[k]?.bind f).map fun (e, msg) => (m.setChan k e, msg.map (.chan k))
  else none

def step (m : Mux ι) : Act ι → Option (Mux ι × Option MuxSent)
  | .packet p => if m.pc = .top then some (m.onePacket p, none) else none
  | .readError e => if m.pc = .top then some (m.goto (.returned (some e)), none) else none
  | .loop choice => m.stepLoop choice
  | .openChannel =>
    some ({ m.newChannel Channel.openChannel with waiting := m.chans.length :: m.waiting },
      some (.channelOpen m.chans.length
        (Channel.openChannel (m.chanList.add m.chans.length).1).openMsg))
  | .abandon k => if k ∈ m.waiting then some (m.stopWaiting k, none) else none
  | .takeChannel => match m.incomingChannels.items with
    | [] => none
    | k :: ks => some ({ m with
        incomingChannels := { m.incomingChannels with items := ks }
        newChannels := k :: m.newChannels }, none)
  | .accept k => m.onNewChannel k Endpoint.accept
  | .reject k f => m.onNewChannel k fun e => e.reject f
  | .chan k a =>
    if a = .opened then if k ∈ m.waiting then (m.stopWaiting k).runUser k a else none
    else if a.user then m.runUser k a
    else none
  | .takeRequest => match m.incomingRequests.items with
    | [] => none
    | _ :: rs => some ({ m with incomingRequests.items := rs }, none)
  | .takeResponse => match m.globalResponses.items with
    | [] => none
    | _ :: rs => some ({ m with globalResponses.items := rs }, none)
  | .halt => some ({ m with halted := true }, none)
  | .cancel => some ({ m with ctxDone := true }, none)

end Mux

inductive Endpoint.Decides (e : Endpoint ι) : Endpoint ι → Option ChanMsg → Prop where
  | accept (hd : e.ch.decided = false) (hs : e.ch.sentClose = false) : Decides e
      { e with ch := { e.ch with maxIncomingPayload := channelMaxPacket, decided := true },
               opened := true,
               log := e.log ++ [.sent (.openConfirm e.ch.localId e.ch.myWindow channelMaxPacket)] }
      (some (.openConfirm e.ch.localId e.ch.myWindow channelMaxPacket))
  | reject (hd : e.ch.decided = false) (hs : e.ch.sentClose = false) : Decides e
      { e with ch := { e.ch with decided := true, idleStop := true },
               log := e.log ++ [.sent (.openFailure f)] } (some (.openFailure f))
  | late (hd : e.ch.decided = false) (hs : e.ch.sentClose = true)
      (hi : e.ch.idleStop = true → stop = true) : Decides e
      { e with ch := { e.ch with maxIncomingPayload := n, decided := true, idleStop := stop } } none

namespace Endpoint

theorem answer_of_closed {e : Endpoint ι} (h : c.sentClose = true) :
    e.answer c o msg = ({ e with ch := c }, none) := by
  unfold answer
  rw [Channel.writePacket_of_closed h]

theorem answer_of_open {e : Endpoint ι} (h : c.sentClose = false) (hm : msg ≠ .close) :
    e.answer c o msg =
      ({ e with ch := c, opened := o, log := e.log ++ [.sent msg] }, some msg) := by
  unfold answer
  rw [Channel.writePacket_of_open h hm]

theorem accept_cases {e : Endpoint ι} (h : e.accept = some (e', msg)) : Decides e e' msg := by
  unfold accept at h
  split at h
  · cases h
  rename_i hd
  have hd : e.ch.decided = false := by simpa using hd
  cases hs : e.ch.sentClose with
  | true =>
    rw [answer_of_closed (c := e.ch.accept.1) hs] at h
    cases h
    exact .late hd hs id
  | false =>
    rw [answer_of_open (c := e.ch.accept.1) hs (by simp [Channel.accept])] at h
    cases h
    exact .accept hd hs

theorem reject_cases {e : Endpoint ι} (h : e.reject f = some (e', msg)) : Decides e e' msg := by
  unfold reject at h
  split at h
  · cases h
  rename_i hd
  have hd : e.ch.decided = false := by simpa using hd
  cases hs : e.ch.sentClose with
  | true =>
    rw [answer_of_closed (c := e.ch.reject) hs] at h
    cases h
    exact .late hd hs fun _ => rfl
  | false =>
    rw [answer_of_open (c := e.ch.reject) hs (by simp)] at h
    cases h
    exact .reject hd hs

end Endpoint

def MuxPc.selecting : MuxPc → Bool
  | .offer _ | .request _ | .response _ => true
  | _ => false

namespace Mux

variable {ι : Type}

/-- All that `onePacket` can do with a packet before its first visible step. -/
inductive Reads (m : Mux ι) : MuxMsg → Mux ι → Prop where
  | error : Reads m p (m.goto (.returned (some e)))
  | refuse : Reads m p (m.goto (.refuse i))
  | request : Reads m p (m.goto (.request r))
  | response : Reads m p (m.goto (.response r))
  | offer (msg : ChannelOpen) (hl : minPacketLength ≤ msg.maxPacketSize)
      (hu : msg.maxPacketSize ≤ 2 ^ 31) : Reads m (.channelOpen (.ok msg))
      ((m.newChannel fun id => Channel.handleChannelOpen id msg).goto (.offer m.chans.length))
  | handle {i k : Nat} (hk : m.chanList.slot i = some k) : Reads m (.chan i msg) (m.deliver k msg)

theorem onePacket_cases (m : Mux ι) (p : MuxMsg) : Reads m p (m.onePacket p) := by
  cases p with
  | channelOpen msg =>
    cases msg with
    | error e => exact .error
    | ok msg =>
      simp only [onePacket]
      split
      · exact .refuse
      rename_i h
      rw [not_or, Nat.not_lt, Nat.not_lt] at h
      exact .offer msg h.1 h.2
  | «global» msg =>
    cases msg with
    | error e => exact .error
    | ok msg =>
      cases msg with
      | request r => exact .request
      | response r => exact .response
  | short tag => exact .error
  | chan i msg =>
    simp only [onePacket]
    split
    · exact .error
    · rename_i k hk
      exact .handle (ChanList.slot_of_getChan hk)

inductive LoopStep [Fintype ι] [DecidableEq ι] (m : Mux ι) :
    LoopChoice → Mux ι → Option MuxSent → Prop where
  | refuse (hp : m.pc = .refuse i) (ho : ∀ k msg, out ≠ some (.chan k msg))
      (ho' : ∀ k msg, out ≠ some (.channelOpen k msg)) :
      LoopStep m (.wrote r) (m.goto (.returned r)) out
  | offer (hp : m.pc = .offer k) (hl : m.incomingChannels.items.length < chanSize) :
      LoopStep m .comm (goto { m with incomingChannels.items := m.incomingChannels.items ++ [k] }
        (.returned none)) none
  | request (hp : m.pc = .request r) (hl : m.incomingRequests.items.length < chanSize) :
      LoopStep m .comm (goto { m with incomingRequests.items := m.incomingRequests.items ++ [r] }
        (.returned none)) none
  | response (hp : m.pc = .response r) (hl : m.globalResponses.items.length < 1) :
      LoopStep m .comm (goto { m with globalResponses.items := m.globalResponses.items ++ [r] }
        (.returned none)) none
  | stopped (hp : m.pc.selecting = true) (hs : m.halted = true ∨ m.ctxDone = true) :
      LoopStep m choice (m.goto (.returned (some .eof))) none
  | run (hp : m.pc.running = some k) (he : m.chans[k]? = some e)
      (hc : m.chanChoice choice = some c) (h : e.step (.loop c) = some (e', eff)) :
      LoopStep m choice ((m.setChan k e').absorb eff) (outOf k eff)
  | handled (hp : m.pc = .handle k) (he : m.chans[k]? = some e) (hl : e.loop = []) :
      LoopStep m choice (m.goto (.returned none)) none
  | closed (hp : m.pc = .close cause k todo) (he : m.chans[k]? = some e) (hl : e.loop = []) :
      LoopStep m choice (m.goto (.drop cause todo)) none
  | again (hp : m.pc = .returned r) (hr : ∀ e, r = some e → e.isTimeout = true) :
      LoopStep m choice (m.goto .top) none
  | leave (hp : m.pc = .returned (some cause)) (ht : cause.isTimeout = false) : LoopStep m choice
      { m with pc := .drop cause m.chanList.dropAll.1, chanList := m.chanList.dropAll.2 } none
  | drop (hp : m.pc = .drop cause (k :: todo)) (he : m.chans[k]? = some e) : LoopStep m choice
      ((m.setChan k { e with loop := Op.close }).goto (.close cause k todo)) none
  | closeQueues (hp : m.pc = .drop cause []) : LoopStep m choice
      { m with
        incomingChannels := { m.incomingChannels with closed := true }
        incomingRequests := { m.incomingRequests with closed := true }
        globalResponses := { m.globalResponses with closed := true }
        pc := .closeConn cause } none
  | closeConn (hp : m.pc = .closeConn cause) :
      LoopStep m choice { m with connClosed := true, pc := .setErr cause } none
  | setErr (hp : m.pc = .setErr cause) :
      LoopStep m choice { m with err := some cause, pc := .done } none

theorem selectSend_cases {m : Mux ι} {out : Option MuxSent}
    (h : (m.selectSend choice q size x store).map (·, none) = some (m', out)) :
    choice = .comm ∧ q.items.length < size ∧
        m' = (store { q with items := q.items ++ [x] }).goto (.returned none) ∧ out = none ∨
      (m.halted = true ∨ m.ctxDone = true) ∧ m' = m.goto (.returned (some .eof)) ∧
        out = none := by
  obtain ⟨m', hs, h⟩ := Option.map_eq_some_iff.mp h
  cases h
  cases choice with
  | comm =>
    obtain ⟨hl, rfl⟩ := of_guard hs
    exact .inl ⟨rfl, hl, rfl, rfl⟩
  | muxHalt =>
    obtain ⟨hh, rfl⟩ := of_guard hs
    exact .inr ⟨.inl hh, rfl, rfl⟩
  | ctx =>
    obtain ⟨hh, rfl⟩ := of_guard hs
    exact .inr ⟨.inr hh, rfl, rfl⟩
  | halt | wrote r => cases hs

theorem onNewChannel_cases {m : Mux ι} {f : Endpoint ι → Option (Endpoint ι × Option ChanMsg)}
    (h : m.onNewChannel k f = some (m', out)) :
    ∃ e e' msg, k ∈ m.newChannels ∧ m.chans[k]? = some e ∧ f e = some (e', msg) ∧
      m' = m.setChan k e' ∧ out = msg.map (.chan k) := by
  unfold onNewChannel at h
  split at h
  · rename_i hk
    obtain ⟨⟨e', msg⟩, hf, h⟩ := Option.map_eq_some_iff.mp h
    obtain ⟨e, he, hf⟩ := Option.bind_eq_some_iff.mp hf
    cases h
    exact ⟨e, e', msg, hk, he, hf, rfl, rfl⟩
  · cases h

variable [Fintype ι] [DecidableEq ι]

theorem runChan_cases {m : Mux ι} (h : m.runChan k q choice = some (m', out)) :
    ∃ e, m.chans[k]? = some e ∧ (e.loop = [] ∧ m' = m.goto q ∧ out = none ∨
      ∃ c e' eff, m.chanChoice choice = some c ∧ e.step (.loop c) = some (e', eff) ∧
        m' = (m.setChan k e').absorb eff ∧ out = outOf k eff) := by
  obtain ⟨e, he, h⟩ := Option.bind_eq_some_iff.mp h
  refine ⟨e, he, ?_⟩
  split at h
  · rename_i hl
    cases h
    exact .inl ⟨hl, rfl, rfl⟩
  · obtain ⟨c, hc, h⟩ := Option.bind_eq_some_iff.mp h
    obtain ⟨⟨e', eff⟩, hs, h⟩ := Option.map_eq_some_iff.mp h
    cases h
    exact .inr ⟨c, e', eff, hc, hs, rfl, rfl⟩

theorem runUser_cases {m : Mux ι} (h : m.runUser k a = some (m', out)) :
    ∃ e e' eff, m.chans[k]? = some e ∧ e.step a = some (e', eff) ∧
      m' = (m.setChan k e').absorb eff ∧ out = outOf k eff := by
  obtain ⟨e, he, h⟩ := Option.bind_eq_some_iff.mp h
  obtain ⟨⟨e', eff⟩, hs, h⟩ := Option.map_eq_some_iff.mp h
  cases h
  exact ⟨e, e', eff, he, hs, rfl, rfl⟩

theorem stepLoop_cases {m : Mux ι} (h : m.stepLoop choice = some (m', out)) :
    LoopStep m choice m' out := by
  unfold stepLoop at h
  split at h
  · cases h
  · cases h
  · cases h
  · rename_i hp
    split at h
    · rename_i r
      cases h
      refine .refuse hp ?_ ?_
      iterate 2
        · intro k msg
          split <;> intro ho <;> cases ho
    · cases h
  · rename_i hp
    obtain ⟨rfl, hl, rfl, rfl⟩ | ⟨hh, rfl, rfl⟩ := selectSend_cases h
    · exact .offer hp hl
    · exact .stopped (by rw [hp]; rfl) hh
  · rename_i hp
    obtain ⟨rfl, hl, rfl, rfl⟩ | ⟨hh, rfl, rfl⟩ := selectSend_cases h
    · exact .request hp hl
    · exact .stopped (by rw [hp]; rfl) hh
  · rename_i hp
    obtain ⟨rfl, hl, rfl, rfl⟩ | ⟨hh, rfl, rfl⟩ := selectSend_cases h
    · exact .response hp hl
    · exact .stopped (by rw [hp]; rfl) hh
  · rename_i hp
    obtain ⟨e, he, ⟨hl, rfl, rfl⟩ | ⟨c, e', eff, hc, hs, rfl, rfl⟩⟩ := runChan_cases h
    · exact .handled hp he hl
    · exact .run (by rw [hp]; rfl) he hc hs
  · rename_i hp
    cases h
    exact .again hp (fun e he => by cases he)
  · rename_i e hp
    split at h
    · rename_i ht
      cases h
      refine .again hp ?_
      rintro e' ⟨⟩
      exact ht
    · rename_i ht
      cases h
      exact .leave hp (by simpa using ht)
  · rename_i hp
    obtain ⟨e, he, h⟩ := Option.map_eq_some_iff.mp h
    cases h
    exact .drop hp he
  · rename_i hp
    obtain ⟨e, he, ⟨hl, rfl, rfl⟩ | ⟨c, e', eff, hc, hs, rfl, rfl⟩⟩ := runChan_cases h
    · exact .closed hp he hl
    · exact .run (by rw [hp]; rfl) he hc hs
  · rename_i hp
    cases h
    exact .closeQueues hp
  · rename_i hp
    cases h
    exact .closeConn hp
  · rename_i hp
    cases h
    exact .setErr hp

inductive Steps (m : Mux ι) : Act ι → Mux ι → Option MuxSent → Prop where
  | packet (hp : m.pc = .top) (h : Reads m p m') : Steps m (.packet p) m' none
  | readError (hp : m.pc = .top) : Steps m (.readError e) (m.goto (.returned (some e))) none
  | loop (h : LoopStep m choice m' out) : Steps m (.loop choice) m' out
  | openChannel : Steps m .openChannel
      { m.newChannel Channel.openChannel with waiting := m.chans.length :: m.waiting }
      (some (.channelOpen m.chans.length
        (Channel.openChannel (m.chanList.add m.chans.length).1).openMsg))
  | abandon (hk : k ∈ m.waiting) : Steps m (.abandon k) (m.stopWaiting k) none
  | decide {a : Act ι} (ha : a = .accept k ∨ ∃ f, a = .reject k f) (hk : k ∈ m.newChannels)
      (he : m.chans[k]? = some e) (h : e.Decides e' msg) :
      Steps m a (m.setChan k e') (msg.map (.chan k))
  | opened (hk : k ∈ m.waiting) (he : m.chans[k]? = some e) (h : e.Steps .opened e' eff) :
      Steps m (.chan k .opened) (((m.stopWaiting k).setChan k e').absorb eff) (outOf k eff)
  | chan (ha : a.user = true) (ho : a ≠ .opened) (he : m.chans[k]? = some e)
      (h : e.Steps a e' eff) : Steps m (.chan k a) ((m.setChan k e').absorb eff) (outOf k eff)
  | takeChannel (hq : m.incomingChannels.items = k :: ks) : Steps m .takeChannel
      { m with
        incomingChannels := { m.incomingChannels with items := ks }
        newChannels := k :: m.newChannels } none
  | takeRequest (hq : m.incomingRequests.items = r :: rs) : Steps m .takeRequest
      { m with incomingRequests.items := rs } none
  | takeResponse (hq : m.globalResponses.items = r :: rs) : Steps m .takeResponse
      { m with globalResponses.items := rs } none
  | halt : Steps m .halt { m with halted := true } none
  | cancel : Steps m .cancel { m with ctxDone := true } none

theorem step_cases {m : Mux ι} (h : m.step a = some (m', out)) : Steps m a m' out := by
  cases a with
  | packet p =>
    obtain ⟨hp, ⟨⟩⟩ := of_guard h
    exact .packet hp (m.onePacket_cases p)
  | readError e =>
    obtain ⟨hp, ⟨⟩⟩ := of_guard h
    exact .readError hp
  | loop choice => exact .loop (stepLoop_cases h)
  | openChannel =>
    cases h
    exact .openChannel
  | takeChannel =>
    simp only [step] at h
    split at h
    · cases h
    rename_i hq
    cases h
    exact .takeChannel hq
  | accept k =>
    obtain ⟨e, e', msg, hk, he, hf, rfl, rfl⟩ := onNewChannel_cases h
    exact .decide (.inl rfl) hk he (Endpoint.accept_cases hf)
  | reject k f =>
    obtain ⟨e, e', msg, hk, he, hf, rfl, rfl⟩ := onNewChannel_cases h
    exact .decide (.inr ⟨f, rfl⟩) hk he (Endpoint.reject_cases hf)
  | abandon k =>
    obtain ⟨hk, ⟨⟩⟩ := of_guard h
    exact .abandon hk
  | chan k a =>
    simp only [step] at h
    split at h
    · rename_i ho
      obtain ⟨hk, h⟩ := Option.ite_none_right_eq_some.mp h
      obtain ⟨e, e', eff, he, hs, rfl, rfl⟩ := runUser_cases h
      subst ho
      exact .opened hk he (Endpoint.step_cases hs)
    · rename_i ho
      obtain ⟨ha, h⟩ := Option.ite_none_right_eq_some.mp h
      obtain ⟨e, e', eff, he, hs, rfl, rfl⟩ := runUser_cases h
      exact .chan ha ho he (Endpoint.step_cases hs)
  | takeRequest =>
    simp only [step] at h
    split at h
    · cases h
    rename_i hq
    cases h
    exact .takeRequest hq
  | takeResponse =>
    simp only [step] at h
    split at h
    · cases h
    rename_i hq
    cases h
    exact .takeResponse hq
  | halt =>
    cases h
    exact .halt
  | cancel =>
    cases h
    exact .cancel

end Mux

end XCryptoSsh
