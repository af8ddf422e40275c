import XCryptoSsh.ChannelSteps

namespace XCryptoSsh
open Function
set_option autoImplicit true

inductive Event where
  | called (m : Method)
  | sent (m : ChanMsg)
  | received (m : ChanMsg)
  | returned (o : Outcome)
  deriving DecidableEq, Repr

def Effect.sends : Option Effect → List ChanMsg
  | some (.send m) => [m]
  | _ => []

def Effect.events (eff : Option Effect) : List Event := (Effect.sends eff).map .sent

def Outcome.events (o : Option Outcome) : List Event := (o.map Event.returned).toList

def Pc.writing : Pc → Option Nat
  | .write code _ | .reserve code _ _ | .send code _ _ _ => some code
  | _ => none

def Pc.reading : Pc → Option Nat
  | .read code _ | .credit code _ | .adjust code _ => some code
  | _ => none

/-- A channel with the goroutines of its user; `loop` holds the steps left of the packet being
handled, `opened` says that the user has the channel. -/
structure Endpoint (ι : Type) where
  ch : Channel
  gos : ι → Pc
  loop : List Op
  opened : Bool
  log : List Event

/-- `opened` is the receipt of the answer by `openChannel`, `takeRequest` the service of the request
channel, and `halt` a stop of the Halter from outside. -/
inductive Endpoint.Act (ι : Type) where
  | call (i : ι) (m : Method)
  | run (i : ι) (choice : Choice)
  | loop (choice : Choice)
  | deliver (m : ChanMsg)
  | opened
  | takeRequest
  | halt
  deriving DecidableEq, Repr

/-- A failed step ends the handling of the packet. -/
def Performed.rest (p : Performed) (ops : List Op) : List Op :=
  match p.effect with
  | some (.fault _) => []
  | _ => p.more ++ ops

def ChanMsg.payloadLength : ChanMsg → Nat
  | .data _ _ payload => payload.length
  | _ => 0

namespace Endpoint

variable {ι : Type} [Fintype ι] [DecidableEq ι]

def start (ch : Channel) (opened : Bool) (log : List Event) : Endpoint ι :=
  ⟨ch, fun _ => .idle, [], opened, log⟩

section

variable (e : Endpoint ι)

/-- Writes to one extended code do not overlap: they would share `packetPool[code]`, which the
source names a data race. -/
def mayCall : Method → Prop
  | .write code _ => ∀ j, (e.gos j).writing ≠ some code
  | _ => True

instance : (m : Method) → Decidable (e.mayCall m)
  | .write code _ => inferInstanceAs (Decidable (∀ j, (e.gos j).writing ≠ some code))
  | .read .. | .closeWrite | .close | .sendRequest .. | .ackRequest _ => .isTrue trivial

def set (i : ι) (pc : Pc) : Endpoint ι :=
  { e with gos := update e.gos i pc }

def ran (i : ι) (r : Ran) : Endpoint ι :=
  { e.set i r.pc with
    ch := r.ch, log := e.log ++ Effect.events r.effect ++ Outcome.events r.returned }

def performed (p : Performed) (ops : List Op) : Endpoint ι :=
  { e with ch := p.ch, loop := p.rest ops, log := e.log ++ Effect.events p.effect }

/-- A packet is handled when the one before is done, and no packet exceeds what the transport
passes up. -/
def step : Act ι → Option (Endpoint ι × Option Effect)
  | .call i m =>
    if e.opened = true ∧ e.gos i = .idle ∧ e.mayCall m then
      some ({ e.set i m.enter with log := e.log ++ [.called m] }, none)
    else none
  | .run i choice => (e.ch.run choice (e.gos i)).map fun r => (e.ran i r, r.effect)
  | .loop choice => match e.loop with
    | [] => none
    | op :: ops => (e.ch.perform choice op).map fun p => (e.performed p ops, p.effect)
  | .deliver m =>
    if e.loop = [] ∧ m.payloadLength ≤ maxPacket then
      some ({ e with loop := Op.handlePacket m, log := e.log ++ [.received m] }, none)
    else none
  | .opened =>
    if e.opened = true ∨ e.ch.direction = .inbound then none
    else match e.ch.msg.items with
      | [] => none
      | .openConfirm .. :: ms =>
        some ({ e with ch := { e.ch with msg.items := ms }, opened := true },
          none)
      | _ :: ms =>
        some ({ e with ch := { e.ch with msg := { e.ch.msg with items := ms }, idleStop := true } },
          none)
  | .takeRequest => match e.ch.incomingRequests.items with
    | [] => none
    | _ :: rs => some ({ e with ch := { e.ch with incomingRequests.items := rs } }, none)
  | .halt => some ({ e with ch.haltStop := true }, none)

def next (a : Act ι) : Option (Endpoint ι) := (e.step a).map Prod.fst

end

inductive Steps (e : Endpoint ι) : Act ι → Endpoint ι → Option Effect → Prop where
  | call (ho : e.opened = true) (hi : e.gos i = .idle) (hm : e.mayCall m) :
      Steps e (.call i m) { e.set i m.enter with log := e.log ++ [.called m] } none
  | run (hr : Runs e.ch (e.gos i) r) : Steps e (.run i choice) (e.ran i r) r.effect
  | loop {op : Op} {ops : List Op} {p : Performed} {choice : Choice} (hl : e.loop = op :: ops)
      (hp : Performs e.ch choice op p) : Steps e (.loop choice) (e.performed p ops) p.effect
  | deliver (hl : e.loop = []) (hm : m.payloadLength ≤ maxPacket) :
      Steps e (.deliver m)
        { e with loop := Op.handlePacket m, log := e.log ++ [.received m] } none
  | opened (hm : e.ch.msg.items = .openConfirm i w n :: ms) (ho : e.opened = false)
      (hd : e.ch.direction = .outbound) : Steps e .opened
        { e with ch := { e.ch with msg.items := ms }, opened := true } none
  | refused (hm : e.ch.msg.items = m :: ms) (ho : e.opened = false)
      (hd : e.ch.direction = .outbound) : Steps e .opened
        { e with ch := { e.ch with msg := { e.ch.msg with items := ms }, idleStop := true } } none
  | takeRequest (hr : e.ch.incomingRequests.items = r :: rs) :
      Steps e .takeRequest { e with ch := { e.ch with incomingRequests.items := rs } } none
  | halt : Steps e .halt { e with ch.haltStop := true } none

theorem step_cases {e : Endpoint ι} (h : e.step a = some (e', eff)) : Steps e a e' eff := by
  cases a with
  | call i m =>
    obtain ⟨⟨ho, hi, hm⟩, ⟨⟩⟩ := Machine.of_guard h
    exact .call ho hi hm
  | run i choice =>
    obtain ⟨r, hr, h⟩ := Option.map_eq_some_iff.mp h
    cases h
    exact .run (Channel.run_cases hr)
  | loop choice =>
    simp only [step] at h
    split at h
    · cases h
    rename_i op ops hl
    obtain ⟨p, hp, h⟩ := Option.map_eq_some_iff.mp h
    cases h
    exact .loop hl (Channel.perform_cases hp)
  | deliver m =>
    obtain ⟨⟨hl, hm⟩, ⟨⟩⟩ := Machine.of_guard h
    exact .deliver hl hm
  | opened =>
    simp only [step] at h
    split at h
    · cases h
    rename_i hn
    have ho : e.opened = false := by simpa using fun ho => hn (.inl ho)
    have hd : e.ch.direction = .outbound := by
      cases hd : e.ch.direction with
      | inbound => exact absurd (.inr hd) hn
      | outbound => rfl
    split at h
    · cases h
    · rename_i hm
      cases h
      exact .opened hm ho hd
    · rename_i hm
      cases h
      exact .refused hm ho hd
  | takeRequest =>
    simp only [step] at h
    split at h
    · cases h
    rename_i hr
    cases h
    exact .takeRequest hr
  | halt =>
    cases h
    exact .halt

end Endpoint

inductive Side where
  | opener
  | accepter
  deriving DecidableEq, Repr

def Side.other : Side → Side
  | .opener => .accepter
  | .accepter => .opener

/-- Two endpoints of one channel. `links s` holds the packets of side `s` that its peer has not
read, `listed s` says that the channel is in its `chanList`, and `faults s` how its packet loop
ended. -/
structure Pair (ι : Type) where
  ends : Side → Endpoint ι
  links : Side → List ChanMsg
  listed : Side → Bool
  faults : Side → Option Fault

namespace Pair

variable {ι : Type} [Fintype ι] [DecidableEq ι]

/-- `teardown` is the end of `mux.loop`, which closes the channels still in the list. -/
inductive Act (ι : Type) where
  | act (s : Side) (a : Endpoint.Act ι)
  | deliver (s : Side)
  | teardown (s : Side)
  deriving DecidableEq, Repr

def send (p : Pair ι) (s : Side) (m : ChanMsg) : Pair ι :=
  { p with links := update p.links s (p.links s ++ [m]) }

def setEnd (p : Pair ι) (s : Side) (e : Endpoint ι) : Pair ι :=
  { p with ends := update p.ends s e }

def absorb (p : Pair ι) (s : Side) : Option Effect → Pair ι
  | none => p
  | some (.send m) => p.send s m
  | some (.remove _) => { p with listed := update p.listed s false }
  | some (.fault f) => { p with faults := update p.faults s (some f) }

def stepEnd (p : Pair ι) (s : Side) (a : Endpoint.Act ι) : Option (Pair ι) :=
  ((p.ends s).step a).map fun (e, eff) => (p.setEnd s e).absorb s eff

def errInvalidChannel (id : Nat) : Err := .text s!"ssh: invalid channel {id}"

/-- Packets come from the peer only, in the order in which it sent them. -/
def step (p : Pair ι) : Act ι → Option (Pair ι)
  | .act _ (.deliver _) => none
  | .act s a => p.stepEnd s a
  | .deliver s => match p.links s.other with
    | [] => none
    | m :: ms =>
      if p.faults s ≠ none ∨ (p.ends s).loop ≠ [] then none
      else
        let p' := { p with links := update p.links s.other ms }
        if p.listed s then p'.stepEnd s (.deliver m)
        else
          let f := .err (errInvalidChannel (p.ends s).ch.localId)
          some { p' with faults := update p.faults s (some f) }
  | .teardown s =>
    if p.faults s ≠ none ∧ (p.ends s).loop = [] ∧ p.listed s = true then
      some { p.setEnd s { p.ends s with loop := Op.close } with
        listed := update p.listed s false }
    else none

/-- The opener has sent its CHANNEL_OPEN and the accepter has answered with `Accept`. -/
def initial (openerId accepterId : Nat) : Pair ι :=
  let o := Channel.openChannel openerId
  let (c, confirm) := (Channel.handleChannelOpen accepterId o.openMsg).accept
  { ends := fun
      | .opener => .start o false []
      | .accepter => .start c true [.sent confirm],
    links := fun
      | .opener => []
      | .accepter => [confirm],
    listed := fun _ => true,
    faults := fun _ => none }

inductive Steps (p : Pair ι) : Act ι → Pair ι → Prop where
  | act (ha : ∀ m, a ≠ .deliver m) (h : Endpoint.Steps (p.ends s) a e eff) :
      Steps p (.act s a) ((p.setEnd s e).absorb s eff)
  | deliver (hm : p.links s.other = m :: ms) (hf : p.faults s = none) (hl : p.listed s = true)
      (h : Endpoint.Steps (p.ends s) (.deliver m) e eff) : Steps p (.deliver s)
        ((setEnd { p with links := update p.links s.other ms } s e).absorb s eff)
  | lost {s : Side} {m : ChanMsg} {ms : List ChanMsg} (hm : p.links s.other = m :: ms)
      (hf : p.faults s = none) (hl : p.listed s = false) :
      Steps p (.deliver s)
        { p with links := update p.links s.other ms,
                 faults := update p.faults s
                  (some (.err (errInvalidChannel (p.ends s).ch.localId))) }
  | teardown (hf : p.faults s ≠ none) (hl : (p.ends s).loop = []) (hd : p.listed s = true) :
      Steps p (.teardown s) { p.setEnd s { p.ends s with loop := Op.close } with
        listed := update p.listed s false }

theorem stepEnd_cases {p : Pair ι} (h : p.stepEnd s a = some p') :
    ∃ e eff, Endpoint.Steps (p.ends s) a e eff ∧ p' = (p.setEnd s e).absorb s eff := by
  obtain ⟨⟨e, eff⟩, he, h⟩ := Option.map_eq_some_iff.mp h
  exact ⟨e, eff, Endpoint.step_cases he, h.symm⟩

theorem step_cases {p : Pair ι} (h : p.step a = some p') : Steps p a p' := by
  cases a with
  | act s a =>
    have ha : ∀ m, a ≠ .deliver m := by
      rintro m rfl
      cases h
    have hs : p.stepEnd s a = some p' := by
      cases a with
      | deliver m => exact absurd rfl (ha m)
      | _ => exact h
    obtain ⟨e, eff, he, rfl⟩ := stepEnd_cases hs
    exact .act ha he
  | deliver s =>
    simp only [step] at h
    split at h
    · cases h
    rename_i m ms hm
    split at h
    · cases h
    rename_i hb
    have hf : p.faults s = none := by
      by_contra hf
      exact hb (.inl hf)
    split at h
    · rename_i hl
      obtain ⟨e, eff, he, rfl⟩ := stepEnd_cases h
      exact .deliver hm hf hl he
    · rename_i hl
      cases h
      exact .lost hm hf (by simpa using hl)
  | teardown s =>
    obtain ⟨⟨hf, hl, hd⟩, rfl⟩ := Machine.of_guard h
    exact .teardown hf hl hd

end Pair

end XCryptoSsh
