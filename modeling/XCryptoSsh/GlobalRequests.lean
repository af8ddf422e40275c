import XCryptoSsh.Channel
import XCryptoSsh.Machine

namespace XCryptoSsh
open Machine List
set_option autoImplicit true

open Go (Bytes)

structure GlobalRequestMsg where
  name : String
  wantReply : Bool
  payload : Bytes
  deriving DecidableEq, Repr

/-- A reply to a global request; `origin` records whose request the peer answered with it. -/
structure GlobalReply where
  ok : Bool
  data : Bytes
  origin : Nat
  deriving DecidableEq, Repr

/-- What `SendRequest` returns: `sent` is the nil error of a call that wants no reply. -/
inductive CallResult where
  | sent
  | answered (r : GlobalReply)
  | failed (e : Err)
  deriving DecidableEq, Repr

/-- Where a goroutine stands in `SendRequest`; `unlock` is the deferred call. -/
inductive CallPc where
  | lock
  | send
  | await
  | unlock (r : CallResult)
  | returned (r : CallResult)
  deriving DecidableEq, Repr

structure RequestCall where
  msg : GlobalRequestMsg
  ctxDone : Bool
  pc : CallPc
  deriving DecidableEq, Repr

def CallPc.result : CallPc → Option CallResult
  | .unlock r | .returned r => some r
  | _ => none

def CallPc.answered (pc : CallPc) : Bool :=
  match pc.result with
  | some (.answered _) => true
  | _ => false

/-- `globalSentMu` is locked for the goroutine there, when its call wants a reply. -/
def CallPc.holding : CallPc → Bool
  | .send | .await | .unlock _ => true
  | _ => false

def CallPc.locks : CallPc → Bool
  | .lock | .await | .unlock _ => true
  | _ => false

/-- How a step of a call comes out: the case that its `select` takes, or a failed write. -/
inductive CallChoice where
  | comm
  | halt
  | ctx
  | fail (e : Err)
  deriving DecidableEq, Repr

/-- `handling` is the reply that the packet loop is about to pass on, `requests` what the peer has
not handled, with the calls, `replies` what the packet loop has not read, and `sent` the requests
that want a reply, in their order. -/
structure GlobalRequests where
  calls : List RequestCall
  globalSentMu : Option Nat
  globalResponses : Queue GlobalReply
  handling : Option GlobalReply
  loopDone : Bool
  halted : Bool
  loopCtxDone : Bool
  requests : List (Nat × GlobalRequestMsg)
  replies : List GlobalReply
  sent : List Nat
  deriving DecidableEq, Repr

/-- `answer` and `skip` are the peer's, for the next request that wants a reply or does not;
`stopLoop` is any other end of the packet loop. -/
inductive GlobalAct where
  | call (msg : GlobalRequestMsg)
  | cancel (i : Nat)
  | run (i : Nat) (choice : CallChoice)
  | answer (ok : Bool) (data : Bytes)
  | skip
  | receive
  | pass (choice : CallChoice)
  | stopLoop
  | halt
  | cancelLoop
  deriving DecidableEq, Repr

namespace GlobalRequests

def new : GlobalRequests :=
  ⟨[], none, .empty, none, false, false, false, [], [], []⟩

section

variable (g : GlobalRequests)

def goto (i : Nat) (pc : CallPc) : GlobalRequests :=
  { g with calls := g.calls.modify i fun c => { c with pc := pc } }

/-- A return from `SendRequest`, by way of the deferred unlock of a call that wants a reply. -/
def leave (i : Nat) (c : RequestCall) (r : CallResult) : GlobalRequests :=
  g.goto i (if c.msg.wantReply then .unlock r else .returned r)

def runCall (i : Nat) (c : RequestCall) (choice : CallChoice) :
    Option GlobalRequests :=
  match c.pc, choice with
  | .lock, .comm => if g.globalSentMu = none then
      some { g.goto i .send with globalSentMu := some i } else none
  | .send, .fail e => some (g.leave i c (.failed e))
  | .send, .comm =>
    let wire := g.requests ++ [(i, c.msg)]
    if c.msg.wantReply then
      some { g.goto i .await with requests := wire, sent := g.sent ++ [i] }
    else some { g.leave i c .sent with requests := wire }
  | .await, .comm => match g.globalResponses.items with
    | r :: rs =>
      some { g.leave i c (.answered r) with globalResponses :=
        { g.globalResponses with items := rs } }
    | [] => if g.globalResponses.closed then some (g.leave i c (.failed .eof)) else none
  | .await, .halt => if g.halted then some (g.leave i c (.failed .eof)) else none
  | .await, .ctx => if c.ctxDone then some (g.leave i c (.failed .eof)) else none
  | .unlock r, .comm => some { g.goto i (.returned r) with globalSentMu := none }
  | _, _ => none

def endLoop : GlobalRequests :=
  { g with handling := none, loopDone := true,
           globalResponses := { g.globalResponses with closed := true } }

/-- The `select` of `handleGlobalPacket` for a reply; the Go channel has room for one. -/
def passReply (r : GlobalReply) : CallChoice → Option GlobalRequests
  | .comm => if g.globalResponses.items = [] then
      some { g with handling := none,
                    globalResponses := { g.globalResponses with items := [r] } } else none
  | .halt => if g.halted then some g.endLoop else none
  | .ctx => if g.loopCtxDone then some g.endLoop else none
  | .fail _ => none

def step : GlobalAct → Option GlobalRequests
  | .call msg =>
    some { g with calls := g.calls ++ [⟨msg, false, if msg.wantReply then .lock else .send⟩] }
  | .cancel i => some { g with calls := g.calls.modify i fun c => { c with ctxDone := true } }
  | .run i choice => g.calls[i]?.bind fun c => g.runCall i c choice
  | .answer ok data => match g.requests with
    | [] => none
    | (i, msg) :: ms => if msg.wantReply then
        some { g with requests := ms, replies := g.replies ++ [⟨ok, data, i⟩] } else none
  | .skip => match g.requests with
    | [] => none
    | (_, msg) :: ms => if msg.wantReply then none else some { g with requests := ms }
  | .receive =>
    if g.loopDone = true ∨ g.handling ≠ none then none
    else match g.replies with
      | [] => none
      | r :: rs => some { g with handling := some r, replies := rs }
  | .pass choice => g.handling.bind fun r => g.passReply r choice
  | .stopLoop => if g.loopDone = true ∨ g.handling ≠ none then none else some g.endLoop
  | .halt => some { g with halted := true }
  | .cancelLoop => some { g with loopCtxDone := true }

def answered (i : Nat) : Bool := (g.calls[i]?.map (·.pc.answered)).getD false

def sentBefore (i : Nat) : List Nat := g.sent.takeWhile (· ≠ i)

end

inductive CallStep (g : GlobalRequests) (i : Nat) (c : RequestCall) : GlobalRequests → Prop where
  | lock (hc : c.pc = .lock) (hmu : g.globalSentMu = none) :
      CallStep g i c { g.goto i .send with globalSentMu := some i }
  | refuse (hc : c.pc = .send) : CallStep g i c (g.leave i c (.failed e))
  | send (hc : c.pc = .send) (hm : c.msg.wantReply = true) : CallStep g i c
      { g.goto i .await with requests := g.requests ++ [(i, c.msg)], sent := g.sent ++ [i] }
  | sendOnly (hc : c.pc = .send) (hm : c.msg.wantReply = false) : CallStep g i c
      { g.leave i c .sent with requests := g.requests ++ [(i, c.msg)] }
  | take {r : GlobalReply} {rs : List GlobalReply} (hc : c.pc = .await)
      (hr : g.globalResponses.items = r :: rs) : CallStep g i c
      { g.leave i c (.answered r) with
        globalResponses := { g.globalResponses with items := rs } }
  | giveUp (hc : c.pc = .await) : CallStep g i c (g.leave i c (.failed .eof))
  | unlock {r : CallResult} (hc : c.pc = .unlock r) :
      CallStep g i c { g.goto i (.returned r) with globalSentMu := none }

theorem runCall_cases {g g' : GlobalRequests} (h : g.runCall i c choice = some g') :
    CallStep g i c g' := by
  unfold runCall at h
  split at h
  · rename_i hc
    obtain ⟨hmu, rfl⟩ := of_guard h
    exact .lock hc hmu
  · rename_i hc
    cases h
    exact .refuse hc
  · rename_i hc
    cases hm : c.msg.wantReply with
    | true =>
      simp only [hm, if_true, Option.some.injEq] at h
      exact h ▸ .send hc hm
    | false =>
      simp only [hm, Bool.false_eq_true, if_false, Option.some.injEq] at h
      exact h ▸ .sendOnly hc hm
  · rename_i hc
    split at h
    · rename_i hr
      cases h
      exact .take hc hr
    · obtain ⟨-, rfl⟩ := of_guard h
      exact .giveUp hc
  iterate 2
    · rename_i hc
      obtain ⟨-, rfl⟩ := of_guard h
      exact .giveUp hc
  · rename_i hc
    cases h
    exact .unlock hc
  · cases h

variable {g g' : GlobalRequests} {c : RequestCall}

theorem calls_goto (g : GlobalRequests) (i j : Nat) (pc : CallPc) :
    (g.goto i pc).calls[j]? = g.calls[j]?.map fun c => if i = j then { c with pc := pc } else c :=
  getElem?_modify ..

theorem calls_goto_self (hc : g.calls[i]? = some c) (pc : CallPc) :
    (g.goto i pc).calls[i]? = some { c with pc := pc } := by
  rw [calls_goto, hc, Option.map_some, if_pos rfl]

theorem calls_goto_ne (g : GlobalRequests) (pc : CallPc) (h : j ≠ i) :
    (g.goto i pc).calls[j]? = g.calls[j]? := by
  rw [calls_goto]
  cases g.calls[j]? with
  | none => rfl
  | some c => rw [Option.map_some, if_neg h.symm]

theorem answered_eq (hc : g.calls[i]? = some c) : g.answered i = c.pc.answered := by
  rw [answered, hc]
  rfl

theorem answered_congr (h : g'.calls[i]? = g.calls[i]?) : g'.answered i = g.answered i := by
  rw [answered, answered, h]

def outstanding (g : GlobalRequests) : List Nat :=
  (g.handling.toList ++ g.replies).map (·.origin) ++
    (g.requests.filter (·.2.wantReply)).map Prod.fst

/-- The request of call `i` was sent, and the reply it has is the one after those that went to the
calls before it. -/
def Served (g : GlobalRequests) (i : Nat) (r : GlobalReply) : Prop :=
  ∃ l l', g.sent = l ++ i :: l' ∧ i ∉ l ∧ g.sent[l.countP g.answered]? = some r.origin

/-- Replies are handed out in the order of the requests: the one that comes next is that of the
request after as many as have been answered. -/
structure Matched (g : GlobalRequests) : Prop where
  wants : ∀ (i : Nat) c, g.calls[i]? = some c → c.pc.locks = true → c.msg.wantReply = true
  holder : ∀ i c, g.calls[i]? = some c → c.msg.wantReply = true → c.pc.holding = true →
    g.globalSentMu = some i
  started : ∀ i ∈ g.sent, ∃ c, g.calls[i]? = some c ∧ c.pc ≠ .lock ∧ c.pc ≠ .send
  awaiting : ∀ i c, g.calls[i]? = some c → c.pc = .await → ∃ l, g.sent = l ++ [i] ∧ i ∉ l
  served : ∀ i c r, g.calls[i]? = some c → c.pc.result = some (.answered r) → g.Served i r
  stream : ∃ rest, g.globalResponses.items.map (·.origin) ++ rest =
    g.sent.drop (g.sent.countP g.answered) ∧ (g.loopDone = false → rest = g.outstanding)
  ended : g.loopDone = true → g.handling = none

theorem matched_new : new.Matched where
  wants _ _ h := by cases h
  holder _ _ h := by cases h
  started _ h := by cases h
  awaiting _ _ h := by cases h
  served _ _ _ h := by cases h
  stream := ⟨[], rfl, fun _ => rfl⟩
  ended _ := rfl

theorem Matched.frame (h : g.Matched) (hc : g'.calls = g.calls)
    (hmu : g'.globalSentMu = g.globalSentMu) (hs : g'.sent = g.sent)
    (hended : g'.loopDone = true → g'.handling = none)
    (hstream : ∀ rest xs, g.globalResponses.items.map (·.origin) ++ rest = xs →
      (g.loopDone = false → rest = g.outstanding) →
      ∃ rest', g'.globalResponses.items.map (·.origin) ++ rest' = xs ∧
        (g'.loopDone = false → rest' = g'.outstanding)) : g'.Matched := by
  have ha : g'.answered = g.answered := funext fun i => answered_congr (by rw [hc])
  obtain ⟨rest, hr, ho⟩ := h.stream
  refine ⟨hc ▸ h.wants, ?_, ?_, ?_, ?_, ?_, hended⟩
  · rw [hc, hmu]
    exact h.holder
  · rw [hc, hs]
    exact h.started
  · rw [hc, hs]
    exact h.awaiting
  · simp only [Served, hc, hs, ha]
    exact h.served
  · rw [hs, ha]
    exact hstream rest _ hr ho

theorem calls_of_goto (h : (g.goto i pc).calls[j]? = some c') :
    (j ≠ i ∧ g.calls[j]? = some c') ∨ ∃ c, j = i ∧ g.calls[i]? = some c ∧
      c' = { c with pc := pc } := by
  by_cases hj : j = i
  · subst hj
    rw [calls_goto] at h
    obtain ⟨c, hc, h⟩ := Option.map_eq_some_iff.mp h
    rw [if_pos rfl] at h
    exact .inr ⟨c, rfl, hc, h.symm⟩
  · rw [calls_goto_ne g pc hj] at h
    exact .inl ⟨hj, h⟩

theorem forall_goto {P : Nat → RequestCall → Prop} (hc : g.calls[i]? = some c)
    (hi : P i { c with pc := pc }) (h : ∀ j c', g.calls[j]? = some c' → P j c') (j : Nat)
    (c' : RequestCall) (hj : (g.goto i pc).calls[j]? = some c') : P j c' := by
  obtain ⟨-, hj'⟩ | ⟨c'', rfl, hj', rfl⟩ := calls_of_goto hj
  · exact h j c' hj'
  · cases hc.symm.trans hj'
    exact hi

section

variable (h : g.Matched)

include h

theorem Matched.move (hc : g.calls[i]? = some c)
    (hcalls : g'.calls = (g.goto i pc).calls) (hs : g'.sent = g.sent)
    (hi : g'.globalResponses = g.globalResponses) (hd : g'.loopDone = g.loopDone)
    (hh : g'.handling = g.handling)
    (ho : g'.outstanding = g.outstanding) (hans : pc.answered = c.pc.answered)
    (hres : ∀ r, pc.result = some (.answered r) → c.pc.result = some (.answered r))
    (hstart : i ∈ g.sent → pc ≠ .lock ∧ pc ≠ .send) (hne : pc ≠ .await)
    (hwants : pc.locks = true → c.msg.wantReply = true)
    (hmu : ∀ j c', g'.calls[j]? = some c' → c'.msg.wantReply = true → c'.pc.holding = true →
      g'.globalSentMu = some j) : g'.Matched := by
  have ha : g'.answered = g.answered := by
    funext j
    by_cases hj : j = i
    · subst hj
      rw [answered_eq hc, answered_eq (hcalls ▸ calls_goto_self hc pc), hans]
    · exact answered_congr (by rw [hcalls, calls_goto_ne g pc hj])
  refine ⟨hcalls ▸ forall_goto hc hwants h.wants, hmu, ?_, ?_, ?_, ?_, hd ▸ hh ▸ h.ended⟩
  · intro j hj
    rw [hs] at hj
    by_cases hji : j = i
    · subst hji
      exact ⟨_, hcalls ▸ calls_goto_self hc pc, hstart hj⟩
    · rw [hcalls, calls_goto_ne g pc hji]
      exact h.started j hj
  · rw [hs, hcalls]
    exact forall_goto hc (fun hp => absurd hp hne) h.awaiting
  · intro j c' r hj hr
    simp only [Served, hs, ha]
    rw [hcalls] at hj
    obtain ⟨-, hj'⟩ | ⟨c'', rfl, hj', rfl⟩ := calls_of_goto hj
    · exact h.served j c' r hj' hr
    · cases hc.symm.trans hj'
      exact h.served j c r hc (hres r hr)
  · rw [hi, hd, ho, hs, ha]
    exact h.stream

theorem Matched.send (hc : g.calls[i]? = some c) (hp : c.pc = .send) (hw : c.msg.wantReply = true) :
    Matched { g.goto i .await with
      requests := g.requests ++ [(i, c.msg)], sent := g.sent ++ [i] } := by
  have hlock : g.globalSentMu = some i := h.holder i c hc hw (by rw [hp]; rfl)
  have hnew : i ∉ g.sent := by
    intro hi
    obtain ⟨c', hc', -, hs⟩ := h.started i hi
    cases hc.symm.trans hc'
    exact hs hp
  have hfalse : g.answered i = false := by rw [answered_eq hc, hp]; rfl
  have ha : (g.goto i .await).answered = g.answered := by
    funext j
    by_cases hj : j = i
    · subst hj
      rw [hfalse, answered_eq (calls_goto_self hc .await)]
      rfl
    · exact answered_congr (calls_goto_ne g _ hj)
  refine ⟨forall_goto hc (fun _ => hw) h.wants, forall_goto hc (fun _ _ => hlock) h.holder,
    ?_, ?_, ?_, ?_, h.ended⟩
  · intro j hj
    rcases mem_append.mp hj with hj | hj
    · have hji : j ≠ i := fun he => hnew (he ▸ hj)
      obtain ⟨c', hc', hne⟩ := h.started j hj
      exact ⟨c', (calls_goto_ne g _ hji).trans hc', hne⟩
    · cases mem_singleton.mp hj
      exact ⟨_, calls_goto_self hc .await, nofun, nofun⟩
  · intro j c' hj hpj
    obtain ⟨hji, hj'⟩ | ⟨c'', rfl, hj', rfl⟩ := calls_of_goto hj
    · have hwj := h.wants j c' hj' (by rw [hpj]; rfl)
      have hmu := h.holder j c' hj' hwj (by rw [hpj]; rfl)
      cases hlock.symm.trans hmu
      exact absurd rfl hji
    · cases hc.symm.trans hj'
      exact ⟨g.sent, rfl, hnew⟩
  · intro j c' r hj hr
    obtain ⟨-, hj'⟩ | ⟨c'', rfl, -, rfl⟩ := calls_of_goto hj
    · obtain ⟨l, l', hs, hl, hk⟩ := h.served j c' r hj' hr
      refine ⟨l, l' ++ [i], by rw [hs, append_assoc]; rfl, hl, ?_⟩
      have hlt := (List.getElem?_eq_some_iff.mp hk).1
      change (g.sent ++ [i])[l.countP (g.goto i .await).answered]? = _
      rw [ha, List.getElem?_append_left hlt, hk]
    · cases hr
  · obtain ⟨rest, hr, ho⟩ := h.stream
    have hcount : (g.sent ++ [i]).countP g.answered = g.sent.countP g.answered := by
      rw [countP_append, countP_singleton, hfalse]
      rfl
    refine ⟨rest ++ [i], ?_, ?_⟩
    · change _ = (g.sent ++ [i]).drop ((g.sent ++ [i]).countP (g.goto i .await).answered)
      rw [ha, hcount, drop_append_of_le_length countP_le_length, ← hr,
        append_assoc]
      rfl
    · intro hd
      rw [ho hd]
      simp only [outstanding, goto, filter_append, map_append, append_assoc]
      simp [hw]

theorem Matched.take (hc : g.calls[i]? = some c) (hp : c.pc = .await)
    (hr : g.globalResponses.items = r :: rs) : Matched { g.leave i c (.answered r) with
      globalResponses := { g.globalResponses with items := rs } } := by
  have hw := h.wants i c hc (by rw [hp]; rfl)
  obtain ⟨l, hl, hi⟩ := h.awaiting i c hc hp
  obtain ⟨rest, hstream, ho⟩ := h.stream
  have hfalse : g.answered i = false := by rw [answered_eq hc, hp]; rfl
  have hcount : g.sent.countP g.answered = l.countP g.answered := by
    rw [hl, countP_append, countP_singleton, hfalse]
    rfl
  have hleave : g.leave i c (.answered r) = g.goto i (.unlock (.answered r)) :=
    by rw [leave, if_pos hw]
  rw [hleave]
  have hself := calls_goto_self hc (.unlock (.answered r))
  have hne {j : Nat} (hj : j ≠ i) :
      (g.goto i (.unlock (.answered r))).answered j = g.answered j :=
    answered_congr (calls_goto_ne g _ hj)
  have hsame {l₁ : List Nat} (hl₁ : i ∉ l₁) :
      l₁.countP (g.goto i (.unlock (.answered r))).answered = l₁.countP g.answered := by
    apply countP_congr
    intro j hj
    rw [hne fun he => hl₁ (he ▸ hj)]
  rw [hr, map_cons, cons_append, hcount] at hstream
  have hnext : g.sent[l.countP g.answered]? = some r.origin := by
    rw [← head?_drop, ← hstream]
    rfl
  have hlock := h.holder i c hc hw (by rw [hp]; rfl)
  refine ⟨forall_goto hc (fun _ => hw) h.wants, forall_goto hc (fun _ _ => hlock) h.holder,
    ?_, forall_goto hc nofun h.awaiting, ?_, ?_, h.ended⟩
  · intro j hj
    by_cases hji : j = i
    · subst hji
      exact ⟨_, hself, nofun, nofun⟩
    · obtain ⟨c', hc', hn⟩ := h.started j hj
      exact ⟨c', (calls_goto_ne g _ hji).trans hc', hn⟩
  · intro j c' r' hj hr'
    obtain ⟨hji, hj'⟩ | ⟨c'', rfl, -, rfl⟩ := calls_of_goto hj
    · obtain ⟨l₁, l₂, hs, hl₁, hk⟩ := h.served j c' r' hj' hr'
      have hnot : i ∉ l₁ := by
        rcases eq_nil_or_concat l₂ with rfl | ⟨l₃, x, rfl⟩
        · cases (append_inj' (hs.symm.trans hl) rfl).2
          exact absurd rfl hji
        have hcat : (l₁ ++ j :: l₃) ++ [x] = l ++ [i] := by
          rw [← hl, hs]
          simp
        have hpre := (append_inj' hcat rfl).1
        intro hmem
        exact hi (hpre ▸ mem_append_left _ hmem)
      refine ⟨l₁, l₂, hs, hl₁, ?_⟩
      change g.sent[l₁.countP (g.goto i (.unlock (.answered r))).answered]? = _
      rw [hsame hnot, hk]
    · cases hr'
      refine ⟨l, [], hl, hi, ?_⟩
      change g.sent[l.countP (g.goto j (.unlock (.answered r))).answered]? = _
      rw [hsame hi, hnext]
  · have htrue : (g.goto i (.unlock (.answered r))).answered i = true := answered_eq hself
    have hcount' : g.sent.countP (g.goto i (.unlock (.answered r))).answered =
        l.countP g.answered + 1 := by
      rw [hl, countP_append, countP_singleton, htrue, hsame hi]
      rfl
    refine ⟨rest, ?_, ho⟩
    change rs.map (·.origin) ++ rest =
      g.sent.drop (g.sent.countP (g.goto i (.unlock (.answered r))).answered)
    rw [hcount', ← tail_drop, ← hstream]
    rfl

theorem Matched.leave (hc : g.calls[i]? = some c) (hh : c.pc.holding = true)
    (hn : c.pc.result = none) (hr : ∀ x, r ≠ .answered x)
    (ho : outstanding { g with requests := ms } = g.outstanding) :
    Matched { g.leave i c r with requests := ms } := by
  have hans : c.pc.answered = false := by rw [CallPc.answered, hn]
  have hresult : (if c.msg.wantReply then CallPc.unlock r else .returned r).result = some r := by
    split <;> rfl
  refine h.move hc rfl rfl rfl rfl rfl ho ?_ ?_ ?_ ?_ ?_ ?_
  · rw [hans, CallPc.answered, hresult]
    cases r with
    | answered x => exact absurd rfl (hr x)
    | _ => rfl
  · intro x hx
    cases hresult.symm.trans hx
    exact absurd rfl (hr x)
  · intro _
    split <;> exact ⟨nofun, nofun⟩
  · split <;> exact nofun
  · split
    · exact fun _ => ‹_›
    · exact nofun
  · exact forall_goto hc (fun hwr _ => h.holder i c hc hwr hh) h.holder

theorem Matched.callStep (hc : g.calls[i]? = some c) (hs : CallStep g i c g') : g'.Matched := by
  cases hs with
  | lock hp hmu =>
    refine h.move hc rfl rfl rfl rfl rfl rfl ?_ ?_ ?_ nofun
      nofun ?_
    · rw [hp]
      rfl
    · intro r hr
      cases hr
    · intro hi
      obtain ⟨c', hc', hl, -⟩ := h.started i hi
      cases hc.symm.trans hc'
      exact absurd hp hl
    · refine forall_goto hc (fun _ _ => rfl) fun j c' hj hwr hh => ?_
      cases hmu.symm.trans (h.holder j c' hj hwr hh)
  | refuse hp | giveUp hp =>
    exact h.leave hc (by rw [hp]; rfl) (by rw [hp]; rfl) (fun x he => by cases he) rfl
  | send hp hw => exact h.send hc hp hw
  | sendOnly hp hw =>
    refine h.leave hc (by rw [hp]; rfl) (by rw [hp]; rfl) (fun x he => by cases he) ?_
    simp [outstanding, hw]
  | take hp hr => exact h.take hc hp hr
  | @unlock r hp =>
    have hw := h.wants i c hc (by rw [hp]; rfl)
    have hlock := h.holder i c hc hw (by rw [hp]; rfl)
    refine h.move hc rfl rfl rfl rfl rfl rfl ?_ ?_ ?_ nofun
      nofun ?_
    · rw [hp]
      rfl
    · intro x hx
      rw [hp]
      exact hx
    · exact fun _ => ⟨nofun, nofun⟩
    intro j c' hj hwr hh
    obtain ⟨hji, hj'⟩ | ⟨c'', rfl, -, rfl⟩ := calls_of_goto hj
    · cases hlock.symm.trans (h.holder j c' hj' hwr hh)
      exact absurd rfl hji
    · cases hh

theorem Matched.endLoop : g.endLoop.Matched := by
  refine h.frame rfl rfl rfl (fun _ => rfl) ?_
  intro rest xs hx _
  exact ⟨rest, hx, nofun⟩

theorem Matched.passReply (hh : g.handling = some r)
    (hs : g.passReply r choice = some g') : g'.Matched := by
  have hd : g.loopDone = false := by
    cases hd : g.loopDone with
    | true => cases hh.symm.trans (h.ended hd)
    | false => rfl
  cases choice with
  | comm =>
    obtain ⟨hempty, rfl⟩ := of_guard hs
    refine h.frame rfl rfl rfl (fun _ => rfl) ?_
    intro rest xs hx ho
    refine ⟨_, ?_, fun _ => rfl⟩
    rw [← hx, hempty, ho hd]
    simp [outstanding, hh]
  | halt | ctx =>
    obtain ⟨-, rfl⟩ := of_guard hs
    exact h.endLoop
  | fail e => cases hs

end

def Entered (c : RequestCall) : Prop := c.pc = if c.msg.wantReply then .lock else .send

theorem Entered.not_answered (h : Entered c) : c.pc.answered = false := by
  rw [h]
  split <;> rfl

theorem Entered.not_holding (h : Entered c) (hw : c.msg.wantReply = true) :
    c.pc.holding = false := by
  rw [h, if_pos hw]
  rfl

theorem Matched.grow (h : g.Matched) (hmu : g'.globalSentMu = g.globalSentMu)
    (hs : g'.sent = g.sent) (hi : g'.globalResponses = g.globalResponses)
    (hd : g'.loopDone = g.loopDone) (hh : g'.handling = g.handling)
    (ho : g'.outstanding = g.outstanding)
    (hold : ∀ (j : Nat) c, g.calls[j]? = some c →
      ∃ c', g'.calls[j]? = some c' ∧ c'.msg = c.msg ∧ c'.pc = c.pc)
    (hnew : ∀ (j : Nat) c', g'.calls[j]? = some c' →
      (∃ c, g.calls[j]? = some c ∧ c'.msg = c.msg ∧ c'.pc = c.pc) ∨
        g.calls[j]? = none ∧ Entered c') : g'.Matched := by
  have ha : g'.answered = g.answered := by
    funext j
    cases hj : g'.calls[j]? with
    | none =>
      cases hj' : g.calls[j]? with
      | none => rw [answered, answered, hj, hj']
      | some c =>
        obtain ⟨c', hc', -⟩ := hold j c hj'
        cases hj.symm.trans hc'
    | some c' =>
      rw [answered_eq hj]
      obtain ⟨c, hc, -, hp⟩ | ⟨hn, he⟩ := hnew j c' hj
      · rw [answered_eq hc, hp]
      · rw [answered, hn, he.not_answered]
        rfl
  refine ⟨?_, ?_, ?_, ?_, ?_, ?_, hd ▸ hh ▸ h.ended⟩
  · intro j c' hj hl
    obtain ⟨c, hc, hm, hp⟩ | ⟨-, he⟩ := hnew j c' hj
    · exact hm ▸ h.wants j c hc (hp ▸ hl)
    by_contra hw
    rw [he, if_neg hw] at hl
    cases hl
  · intro j c' hj hw hl
    rw [hmu]
    obtain ⟨c, hc, hm, hp⟩ | ⟨-, he⟩ := hnew j c' hj
    · exact h.holder j c hc (hm ▸ hw) (hp ▸ hl)
    · cases (he.not_holding hw).symm.trans hl
  · intro j hj
    rw [hs] at hj
    obtain ⟨c, hc, hl, hsend⟩ := h.started j hj
    obtain ⟨c', hc', -, hp⟩ := hold j c hc
    exact ⟨c', hc', hp ▸ hl, hp ▸ hsend⟩
  · intro j c' hj hp
    rw [hs]
    obtain ⟨c, hc, -, hpc⟩ | ⟨-, he⟩ := hnew j c' hj
    · exact h.awaiting j c hc (hpc ▸ hp)
    · rw [he] at hp
      split at hp <;> cases hp
  · intro j c' r hj hr
    simp only [Served, hs, ha]
    obtain ⟨c, hc, -, hpc⟩ | ⟨-, he⟩ := hnew j c' hj
    · exact h.served j c r hc (hpc ▸ hr)
    · rw [he] at hr
      split at hr <;> cases hr
  · rw [hi, hd, ho, hs, ha]
    exact h.stream

theorem Matched.call (h : g.Matched) (msg : GlobalRequestMsg) :
    Matched { g with calls := g.calls ++
      [⟨msg, false, if msg.wantReply then .lock else .send⟩] } := by
  refine h.grow rfl rfl rfl rfl rfl rfl ?_ ?_
  · intro j c hj
    have hlt := (List.getElem?_eq_some_iff.mp hj).1
    exact ⟨c, (List.getElem?_append_left hlt).trans hj, rfl, rfl⟩
  intro j c' hj
  by_cases hlt : j < g.calls.length
  · rw [getElem?_append_left hlt] at hj
    exact .inl ⟨c', hj, rfl, rfl⟩
  rw [getElem?_append_right (Nat.not_lt.mp hlt), getElem?_singleton] at hj
  split at hj
  · cases hj
    exact .inr ⟨getElem?_eq_none (Nat.not_lt.mp hlt), rfl⟩
  · cases hj

theorem Matched.cancel (h : g.Matched) (i : Nat) :
    Matched { g with calls := g.calls.modify i fun c => { c with ctxDone := true } } := by
  refine h.grow rfl rfl rfl rfl rfl rfl ?_ ?_
  · intro j c hj
    refine ⟨if i = j then { c with ctxDone := true } else c, ?_, ?_, ?_⟩
    · rw [getElem?_modify, hj]
      rfl
    · split <;> rfl
    · split <;> rfl
  · intro j c' hj
    rw [getElem?_modify] at hj
    obtain ⟨c, hc, rfl⟩ := Option.map_eq_some_iff.mp hj
    refine .inl ⟨c, hc, ?_, ?_⟩
    · split <;> rfl
    · split <;> rfl

theorem Matched.step (h : g.Matched) (hs : g.step a = some g') : g'.Matched := by
  cases a with
  | call msg =>
    cases hs
    exact h.call msg
  | cancel i =>
    cases hs
    exact h.cancel i
  | run i choice =>
    obtain ⟨c, hc, hr⟩ := Option.bind_eq_some_iff.mp hs
    exact h.callStep hc (runCall_cases hr)
  | answer ok data =>
    simp only [GlobalRequests.step] at hs
    split at hs
    · cases hs
    rename_i i msg ms hm
    obtain ⟨hw, rfl⟩ := of_guard hs
    refine h.frame rfl rfl rfl h.ended ?_
    intro rest xs hx ho
    refine ⟨rest, hx, fun hd => (ho hd).trans ?_⟩
    simp [outstanding, hm, hw]
  | skip =>
    simp only [GlobalRequests.step] at hs
    split at hs
    · cases hs
    rename_i i msg ms hm
    simp only [Option.ite_none_left_eq_some, Option.some.injEq] at hs
    obtain ⟨hw, rfl⟩ := hs
    refine h.frame rfl rfl rfl h.ended ?_
    intro rest xs hx ho
    refine ⟨rest, hx, fun hd => (ho hd).trans ?_⟩
    simp [outstanding, hm, hw]
  | receive =>
    simp only [GlobalRequests.step] at hs
    split at hs
    · cases hs
    rename_i hn
    obtain ⟨hd, hh⟩ := not_or.mp hn
    split at hs
    · cases hs
    rename_i r rs hr
    cases hs
    refine h.frame rfl rfl rfl (fun he => absurd he hd) ?_
    intro rest xs hx ho
    refine ⟨rest, hx, fun hd' => (ho hd').trans ?_⟩
    simp [outstanding, hr, not_not.mp hh]
  | pass choice =>
    obtain ⟨r, hr, hp⟩ := Option.bind_eq_some_iff.mp hs
    exact h.passReply hr hp
  | stopLoop =>
    simp only [GlobalRequests.step, Option.ite_none_left_eq_some, Option.some.injEq] at hs
    obtain ⟨-, rfl⟩ := hs
    exact h.endLoop
  | halt | cancelLoop =>
    cases hs
    exact h.frame rfl rfl rfl h.ended fun rest xs hx ho => ⟨rest, hx, ho⟩

theorem matched_run (h : exec GlobalRequests.step new as = some g) : g.Matched :=
  run_invariant (G := fun _ _ => True) (I := Matched) (fun _ _ _ hm _ hs => hm.step hs)
    matched_new (along_of_forall fun _ _ _ => trivial) h

/-- No reply is lost, doubled or reordered: those that wait and those the peer still owes are those
of the requests after as many as have been answered. -/
theorem replies_in_order (h : exec GlobalRequests.step new as = some g) (hl : g.loopDone = false) :
    g.globalResponses.items.map (·.origin) ++ g.outstanding =
      g.sent.drop (g.sent.countP g.answered) := by
  obtain ⟨rest, hr, ho⟩ := (matched_run h).stream
  rw [← ho hl]
  exact hr

theorem takeWhile_ne_append {l l' : List Nat} (hi : i ∉ l) :
    (l ++ i :: l').takeWhile (· ≠ i) = l := by
  rw [takeWhile_append_of_pos]
  · simp
  · intro j hj
    simpa using fun he : j = i => hi (he ▸ hj)

/-- A call returns the reply to its own request exactly if every request before it that wants a
reply got the one its call was waiting for. -/
theorem reply_own_iff (h : exec GlobalRequests.step new as = some g)
    (hc : g.calls[i]? = some c) (hr : c.pc = .returned (.answered r)) :
    r.origin = i ↔ ∀ j ∈ g.sentBefore i, g.answered j = true := by
  obtain ⟨l, l', hs, hi, hk⟩ := (matched_run h).served i c r hc (by rw [hr]; rfl)
  rw [sentBefore, hs, takeWhile_ne_append hi, ← countP_eq_length]
  rw [hs] at hk
  constructor
  · intro ho
    refine Nat.le_antisymm countP_le_length (Nat.not_lt.mp fun hlt => ?_)
    rw [getElem?_append_left hlt] at hk
    exact hi (ho ▸ mem_of_getElem? hk)
  · intro he
    rw [he, getElem?_append_right (Nat.le_refl _), Nat.sub_self] at hk
    cases hk
    rfl

/-- The first call gives up, its reply waits in the Go channel, and the second call takes it. -/
def crossed : List GlobalAct :=
  [.call ⟨"first", true, []⟩, .call ⟨"second", true, []⟩, .run 0 .comm, .run 0 .comm, .cancel 0,
    .run 0 .ctx, .run 0 .comm, .answer true [7], .receive, .pass .comm, .run 1 .comm, .run 1 .comm,
    .run 1 .comm, .run 1 .comm]

theorem replies_in_order_crossed :
    ∃ g, exec GlobalRequests.step new (crossed.take 10) = some g ∧
      g.globalResponses.items.map (·.origin) ++ g.outstanding =
        g.sent.drop (g.sent.countP g.answered) := by
  have hrun : (exec GlobalRequests.step new (crossed.take 10)).map (·.loopDone) = some false := by
    decide +kernel
  obtain ⟨g, hg, hl⟩ := Option.map_eq_some_iff.mp hrun
  exact ⟨g, hg, replies_in_order hg hl⟩

theorem reply_not_own :
    ∃ g c r, exec GlobalRequests.step new crossed = some g ∧ g.calls[1]? = some c ∧
      c.pc = .returned (.answered r) ∧ r.origin = 0 := by
  have hrun : (exec GlobalRequests.step new crossed).bind (·.calls[1]?) =
      some ⟨⟨"second", true, []⟩, false, .returned (.answered ⟨true, [7], 0⟩)⟩ := by decide +kernel
  obtain ⟨g, hg, hc⟩ := Option.bind_eq_some_iff.mp hrun
  exact ⟨g, _, _, hg, hc, rfl, rfl⟩

def paired : List GlobalAct :=
  [.call ⟨"first", true, []⟩, .call ⟨"second", true, []⟩, .run 0 .comm, .run 0 .comm,
    .answer true [7], .receive, .pass .comm, .run 0 .comm, .run 0 .comm, .run 1 .comm, .run 1 .comm,
    .answer false [8], .receive, .pass .comm, .run 1 .comm, .run 1 .comm]

theorem reply_own_paired :
    ∃ g c r, exec GlobalRequests.step new paired = some g ∧ g.calls[1]? = some c ∧
      c.pc = .returned (.answered r) ∧ (r.origin = 1 ↔ ∀ j ∈ g.sentBefore 1, g.answered j = true) ∧
      g.sentBefore 1 = [0] ∧ r.data = [8] := by
  have hrun : (exec GlobalRequests.step new paired).bind (·.calls[1]?) =
      some ⟨⟨"second", true, []⟩, false, .returned (.answered ⟨false, [8], 1⟩)⟩ := by decide +kernel
  have hsent : (exec GlobalRequests.step new paired).map (·.sentBefore 1) = some [0] := by
    decide +kernel
  obtain ⟨g, hg, hc⟩ := Option.bind_eq_some_iff.mp hrun
  rw [hg] at hsent
  exact ⟨g, _, _, hg, hc, rfl, reply_own_iff hg hc rfl, Option.some.inj hsent, rfl⟩

end GlobalRequests

end XCryptoSsh
