import XCryptoSsh.Machine
import Mathlib.Data.Finset.Basic
import Mathlib.Logic.Relation

namespace XCryptoSsh
set_option autoImplicit true

open Machine List Option Function

/-- A `Halter` without its error; the flags of the closed channels stand for the channels. -/
structure Halter (κ : Type) where
  done : Bool
  reqStop : Bool
  upstream : Finset κ
  downstream : Finset κ
  mutex : Bool
  deriving DecidableEq

def newHalter : Halter κ := ⟨false, false, ∅, ∅, false⟩

inductive HalterCall (κ : Type) where
  | requestStop (h : κ)
  | markDone (h : κ)
  | markDoneNoBlock (h : κ)
  | addDownstream (h d : κ)
  | removeDownstream (h d : κ)
  deriving DecidableEq, Repr

/-- What is left of a call. `range` and `wait` hold the mutex of their Halter and have the rest of
its downstream to go through. -/
inductive HalterFrame (κ : Type) where
  | requestStop (h : κ)
  | lockRange (h : κ)
  | range (h : κ) (todo : Finset κ)
  | lockWait (h : κ)
  | wait (h : κ) (todo : Finset κ)
  | markDone (h : κ)
  | addDownstream (h d : κ)
  | removeDownstream (h d : κ)
  | addUpstream (h u : κ)
  | removeUpstream (h u : κ)
  deriving DecidableEq

def HalterCall.enter : HalterCall κ → List (HalterFrame κ)
  | .requestStop h => [.requestStop h]
  | .markDone h => [.requestStop h, .lockWait h, .markDone h]
  | .markDoneNoBlock h => [.requestStop h, .markDone h]
  | .addDownstream h d => [.addDownstream h d, .addUpstream d h]
  | .removeDownstream h d => [.removeDownstream h d, .removeUpstream d h]

section

variable {κ : Type} [DecidableEq κ]

variable (s : κ → Halter κ)

def closeReqStop (h : κ) : κ → Halter κ :=
  update s h { s h with reqStop := true }

def closeDone (h : κ) : κ → Halter κ :=
  update s h { s h with done := true }

def unlock (h : κ) : κ → Halter κ :=
  update s h { s h with mutex := false }

/-- A critical section of the mutex of `h` that does not call out; `none` while it is held. -/
def locked (h : κ) (f : Halter κ → Halter κ) : Option (κ → Halter κ) :=
  if (s h).mutex then none else some (update s h (f (s h)))

/-- One step of a call: the Halters and what takes the place of the frame. A loop over a map takes
its elements as `pick` says. -/
def HalterFrame.run (pick : Option κ) :
    HalterFrame κ → Option ((κ → Halter κ) × List (HalterFrame κ))
  | .requestStop h => some (closeReqStop s h, [.lockRange h])
  | .lockRange h =>
    (locked s h fun x => { x with mutex := true }).map (·, [.range h (s h).downstream])
  | .range h todo => match pick with
    | some d => if d ∈ todo then some (s, [.requestStop d, .range h (todo.erase d)]) else none
    | none => if todo = ∅ then some (unlock s h, []) else none
  | .lockWait h =>
    (locked s h fun x => { x with mutex := true }).map (·, [.wait h (s h).downstream])
  | .wait h todo => match pick with
    | some d =>
      if d ∈ todo ∧ (s d).done = true then some (s, [.removeUpstream d h, .wait h (todo.erase d)])
      else none
    | none => if todo = ∅ then some (unlock s h, []) else none
  | .markDone h => some (closeDone s h, [])
  | .addDownstream h d =>
    (locked s h fun x => { x with downstream := insert d x.downstream }).map (·, [])
  | .removeDownstream h d =>
    (locked s h fun x => { x with downstream := x.downstream.erase d }).map (·, [])
  | .addUpstream h u => (locked s h fun x => { x with upstream := insert u x.upstream }).map (·, [])
  | .removeUpstream h u =>
    (locked s h fun x => { x with upstream := x.upstream.erase u }).map (·, [])

end

inductive MadPc where
  | select
  | closeDone
  | returned
  deriving DecidableEq, Repr

/-- The goroutine of `MAD`; `hchan` stands for the two channels of the Halter, which become nil
together. `cancelctx` cancels a context. -/
structure Mad (κ χ : Type) where
  ctx : χ
  cancelctx : Option χ
  halt : κ
  cchan : Bool
  hchan : Bool
  cDone : Bool
  hDone : Bool
  pc : MadPc
  deriving DecidableEq, Repr

inductive MadCase where
  | cchan
  | hchan1
  | hchan2
  deriving DecidableEq, Repr

namespace Mad

def mad (ctx : χ) (cancelctx : Option χ) (halt : κ) : Mad κ χ :=
  ⟨ctx, cancelctx, halt, true, true, false, false, .select⟩

def again (m : Mad κ χ) : Mad κ χ :=
  { m with pc := if m.cDone && m.hDone then .returned else .select }

variable {κ χ : Type} [DecidableEq κ] [DecidableEq χ]

def halted (m : Mad κ χ) : Mad κ χ :=
  again { m with hDone := true, cancelctx := none, hchan := false }

def cancels (m : Mad κ χ) (cancelled : χ → Bool) : χ → Bool :=
  match m.cancelctx with
  | some c => update cancelled c true
  | none => cancelled

def run (m : Mad κ χ) (s : κ → Halter κ) (cancelled : χ → Bool) (case : MadCase) :
    Option (Mad κ χ × (κ → Halter κ) × (χ → Bool)) :=
  match m.pc, case with
  | .select, .cchan =>
    if m.cchan && cancelled m.ctx then
      some ({ m with pc := .closeDone }, closeReqStop s m.halt, cancelled)
    else none
  | .select, .hchan1 =>
    if m.hchan && (s m.halt).reqStop then some (m.halted, s, m.cancels cancelled) else none
  | .select, .hchan2 =>
    if m.hchan && (s m.halt).done then some (m.halted, s, m.cancels cancelled) else none
  | .closeDone, .cchan =>
    some (again { m with cDone := true, cchan := false }, closeDone s m.halt, cancelled)
  | _, _ => none

end Mad

structure Halters (ι κ χ : Type) where
  halters : κ → Halter κ
  gos : ι → List (HalterFrame κ)
  mads : List (Mad κ χ)
  cancelled : χ → Bool

namespace Halters

inductive Act (ι κ χ : Type) where
  | call (i : ι) (c : HalterCall κ)
  | run (i : ι) (pick : Option κ)
  | mad (ctx : χ) (cancelctx : Option χ) (halt : κ)
  | runMad (k : Nat) (case : MadCase)
  | cancel (ctx : χ)
  deriving DecidableEq, Repr

def newHalters : Halters ι κ χ := ⟨fun _ => newHalter, fun _ => [], [], fun _ => false⟩

variable {ι κ χ : Type} [DecidableEq ι] [DecidableEq κ] [DecidableEq χ]

def step (s : Halters ι κ χ) : Act ι κ χ → Option (Halters ι κ χ)
  | .call i c =>
    if s.gos i = [] then some { s with gos := update s.gos i c.enter } else none
  | .run i pick => match s.gos i with
    | [] => none
    | f :: rest => (f.run s.halters pick).map fun (hs, fs) =>
      { s with halters := hs, gos := update s.gos i (fs ++ rest) }
  | .mad ctx cancelctx halt => some { s with mads := s.mads ++ [.mad ctx cancelctx halt] }
  | .runMad k case => match s.mads[k]? with
    | none => none
    | some m => (m.run s.halters s.cancelled case).map fun (m', hs, cancelled) =>
      { s with mads := s.mads.set k m', halters := hs, cancelled }
  | .cancel ctx => some { s with cancelled := update s.cancelled ctx true }

def Downstream (s : Halters ι κ χ) (h d : κ) : Prop := d ∈ (s.halters h).downstream

instance (s : Halters ι κ χ) (h d : κ) : Decidable (s.Downstream h d) :=
  inferInstanceAs (Decidable (d ∈ (s.halters h).downstream))

end Halters

def HalterFrame.requesting : HalterFrame κ → Bool
  | .requestStop _ | .lockRange _ | .range .. => true
  | _ => false

/-- The frame will yet request the stop of `d`, as `h` has to. -/
def HalterFrame.Reaches (h d : κ) : HalterFrame κ → Prop
  | .requestStop x => x = d
  | .lockRange x => x = h
  | .range x todo => x = h ∧ d ∈ todo
  | _ => False

theorem HalterFrame.Reaches.requesting {f : HalterFrame κ} (h : f.Reaches x d) :
    f.requesting = true := by
  cases f <;> first | rfl | exact h.elim

section

variable {κ : Type} [DecidableEq κ] {s s' : κ → Halter κ}

theorem update_of_same (g : Halter κ → β) (h : g y = g (s x)) (z : κ) :
    g (update s x y z) = g (s z) := by
  by_cases hz : z = x
  · subst hz
    rw [update_self, h]
  · rw [update_of_ne hz]

theorem reqStop_closeReqStop (s : κ → Halter κ) (x z : κ) :
    (closeReqStop s x z).reqStop = true ↔ z = x ∨ (s z).reqStop = true := by
  unfold closeReqStop
  by_cases hz : z = x
  · simp [hz]
  · simp [hz]

theorem downstream_closeReqStop (s : κ → Halter κ) (x z : κ) :
    (closeReqStop s x z).downstream = (s z).downstream :=
  update_of_same (y := { s x with reqStop := true }) Halter.downstream rfl z

theorem locked_cases (h : (locked s x f).map (·, fs) = some r) :
    (s x).mutex = false ∧ r = (update s x (f (s x)), fs) := by
  obtain ⟨s', hs, rfl⟩ := map_eq_some_iff.mp h
  obtain ⟨hm, hs⟩ := ite_none_left_eq_some.mp hs
  cases hs
  exact ⟨by simpa using hm, rfl⟩

structure HalterFrame.Moves (f : HalterFrame κ) (s s' : κ → Halter κ)
    (fs : List (HalterFrame κ)) : Prop where
  kept : ∀ x, (s x).reqStop = true → (s' x).reqStop = true
  closed : ∀ x, (s' x).reqStop = true → (s x).reqStop = true ∨ .lockRange x ∈ fs
  edges : ∀ x d, d ∈ (s' x).downstream → d ∈ (s x).downstream ∨ f = .addDownstream x d
  reaches : ∀ x d, d ∈ (s x).downstream → f.Reaches x d →
    (s' d).reqStop = true ∨ ∃ g ∈ fs, g.Reaches x d

theorem HalterFrame.Moves.of_update {y : Halter κ} (hr : y.reqStop = (s x).reqStop)
    (hd : ∀ d ∈ y.downstream, d ∈ (s x).downstream ∨ f = .addDownstream x d)
    (hf : ∀ h d, d ∈ (s h).downstream → f.Reaches h d → ∃ g ∈ fs, g.Reaches h d) :
    HalterFrame.Moves f s (update s x y) fs := by
  have hreq := update_of_same Halter.reqStop hr
  refine ⟨fun z h => (hreq z).trans h, fun z h => .inl ((hreq z).symm.trans h), ?_, ?_⟩
  · intro z d h
    by_cases hz : z = x
    · subst hz
      rw [update_self] at h
      exact hd d h
    · rw [update_of_ne hz] at h
      exact .inl h
  · exact fun h d hm hr => .inr (hf h d hm hr)

theorem HalterFrame.moves {f : HalterFrame κ} (h : f.run s pick = some (s', fs)) :
    f.Moves s s' fs := by
  cases f with
  | requestStop x =>
    cases h
    refine ⟨fun z hz => (reqStop_closeReqStop s x z).mpr (.inr hz), fun z hz => ?_, ?_, ?_⟩
    · obtain rfl | hz := (reqStop_closeReqStop s x z).mp hz
      · exact .inr mem_cons_self
      · exact .inl hz
    · exact fun z d hd => .inl (downstream_closeReqStop s x z ▸ hd)
    · rintro z d - rfl
      exact .inl ((reqStop_closeReqStop s x x).mpr (.inl rfl))
  | lockRange x =>
    obtain ⟨-, heq⟩ := locked_cases h
    cases heq
    refine .of_update rfl (fun _ => .inl) ?_
    rintro z d hd rfl
    exact ⟨_, mem_cons_self, rfl, hd⟩
  | range x todo =>
    cases pick with
    | some d =>
      obtain ⟨-, ⟨⟩⟩ := of_guard h
      refine ⟨fun _ => id, fun _ => .inl, fun _ _ => .inl, ?_⟩
      rintro z d' hd' ⟨rfl, hmem⟩
      by_cases hdd : d' = d
      · exact .inr ⟨.requestStop d, mem_cons_self, hdd.symm⟩
      · exact .inr ⟨.range x (todo.erase d), by simp, rfl, Finset.mem_erase.mpr ⟨hdd, hmem⟩⟩
    | none =>
      obtain ⟨rfl, ⟨⟩⟩ := of_guard h
      refine .of_update rfl (fun _ => .inl) ?_
      rintro z d - ⟨-, hmem⟩
      cases Finset.notMem_empty d hmem
  | lockWait x | addUpstream x u | removeUpstream x u =>
    obtain ⟨-, heq⟩ := locked_cases h
    cases heq
    exact .of_update rfl (fun _ => .inl) fun _ _ _ hf => hf.elim
  | wait x todo =>
    cases pick with
    | some d =>
      obtain ⟨-, ⟨⟩⟩ := of_guard h
      exact ⟨fun _ => id, fun _ => .inl, fun _ _ => .inl, fun _ _ _ hf => hf.elim⟩
    | none =>
      obtain ⟨-, ⟨⟩⟩ := of_guard h
      exact .of_update rfl (fun _ => .inl) fun _ _ _ hf => hf.elim
  | markDone x =>
    cases h
    exact .of_update rfl (fun _ => .inl) fun _ _ _ hf => hf.elim
  | addDownstream x d =>
    obtain ⟨-, heq⟩ := locked_cases h
    cases heq
    refine .of_update rfl (fun z hz => ?_) fun _ _ _ hf => hf.elim
    obtain rfl | hz := Finset.mem_insert.mp hz
    · exact .inr rfl
    · exact .inl hz
  | removeDownstream x d =>
    obtain ⟨-, heq⟩ := locked_cases h
    cases heq
    exact .of_update rfl (fun _ hd => .inl (Finset.mem_of_mem_erase hd)) fun _ _ _ hf => hf.elim

end

theorem Mad.moves {κ χ : Type} [DecidableEq κ] [DecidableEq χ] {m m' : Mad κ χ}
    {s s' : κ → Halter κ} {cancelled cancelled' : χ → Bool}
    (h : m.run s cancelled case = some (m', s', cancelled')) :
    (∀ x, (s' x).downstream = (s x).downstream) ∧
      (∀ x, (s x).reqStop = true → (s' x).reqStop = true) ∧
        ∀ x, (s' x).reqStop = true →
          (s x).reqStop = true ∨ case = .cchan ∧ m.pc = .select ∧ x = m.halt := by
  unfold run at h
  split at h
  · rename_i hpc
    obtain ⟨-, ⟨⟩⟩ := of_guard h
    have hreq := reqStop_closeReqStop s m.halt
    refine ⟨downstream_closeReqStop s m.halt, fun x hx => (hreq x).mpr (.inr hx), fun x hx => ?_⟩
    obtain hx | hx := (hreq x).mp hx
    · exact .inr ⟨rfl, hpc, hx⟩
    · exact .inl hx
  iterate 2
    · obtain ⟨-, ⟨⟩⟩ := of_guard h
      exact ⟨fun _ => rfl, fun _ => id, fun _ => .inl⟩
  · cases h
    have hreq : ∀ x, (closeDone s m.halt x).reqStop = (s x).reqStop :=
      update_of_same Halter.reqStop rfl
    exact ⟨update_of_same Halter.downstream rfl, fun x hx => (hreq x).trans hx,
      fun x hx => .inl ((hreq x).symm.trans hx)⟩
  · cases h

namespace Halters

variable {ι κ χ : Type} [DecidableEq ι] [DecidableEq κ] [DecidableEq χ] {s s' : Halters ι κ χ}

/-- `d` is stopped, or a call is on its way to request its stop. -/
def Reached (s : Halters ι κ χ) (h d : κ) : Prop :=
  (s.halters d).reqStop = true ∨ ∃ i, ∃ f ∈ s.gos i, f.Reaches h d

/-- No Halter is left behind: none is attached to a stopped one, and no `reqStop` is closed from a
context above one, unless a stop reaches it. -/
def Passing (s : Halters ι κ χ) : Act ι κ χ → Prop
  | .run i _ => ∀ h d, (s.gos i).head? = some (.addDownstream h d) →
      (s.halters h).reqStop = true → s.Reached h d
  | .runMad k .cchan => ∀ m ∈ s.mads[k]?, m.pc = .select → (s.halters m.halt).reqStop = false →
      ∀ d ∈ (s.halters m.halt).downstream, s.Reached m.halt d
  | _ => True

def Covered (s : Halters ι κ χ) : Prop :=
  ∀ h d, (s.halters h).reqStop = true → s.Downstream h d → s.Reached h d

omit [DecidableEq κ] [DecidableEq χ] in
theorem Covered.run (hi : s.Covered) (hg : s.gos i = f :: rest)
    (hpass : ∀ h d, f = .addDownstream h d → (s.halters h).reqStop = true → s.Reached h d)
    (hm : f.Moves s.halters hs fs) :
    Covered { s with halters := hs, gos := update s.gos i (fs ++ rest) } := by
  intro h d hh hd
  have hcoming : ∀ g ∈ fs ++ rest, g.Reaches h d →
      Reached { s with halters := hs, gos := update s.gos i (fs ++ rest) } h d :=
    fun g hmem hr => .inr ⟨i, g, by simpa using hmem, hr⟩
  obtain hh | hlock := hm.closed h hh
  · have hreach : s.Reached h d := by
      obtain hdown | hadd := hm.edges h d hd
      · exact hi h d hh hdown
      · exact hpass h d hadd hh
    obtain hdone | ⟨j, g, hmem, hr⟩ := hreach
    · exact .inl (hm.kept d hdone)
    by_cases hj : j = i
    · subst hj
      rw [hg] at hmem
      obtain rfl | hmem := mem_cons.mp hmem
      · obtain hdown | rfl := hm.edges h d hd
        · obtain hdone | ⟨g, hmem, hr⟩ := hm.reaches h d hdown hr
          · exact .inl hdone
          · exact hcoming g (mem_append_left _ hmem) hr
        · exact hr.elim
      · exact hcoming g (mem_append_right _ hmem) hr
    · exact .inr ⟨j, g, by simpa [update_of_ne hj] using hmem, hr⟩
  · exact hcoming _ (mem_append_left _ hlock) rfl

theorem Covered.step (hi : s.Covered) (hp : s.Passing a) (h : s.step a = some s') :
    s'.Covered := by
  cases a with
  | call i c =>
    obtain ⟨hidle, rfl⟩ := of_guard h
    intro x d hx hd
    obtain hdone | ⟨j, f, hmem, hr⟩ := hi x d hx hd
    · exact .inl hdone
    refine .inr ⟨j, f, ?_, hr⟩
    have hj : j ≠ i := by
      rintro rfl
      rw [hidle] at hmem
      cases hmem
    simpa [update_of_ne hj] using hmem
  | run i pick =>
    simp only [Halters.step] at h
    split at h
    · cases h
    rename_i f rest hg
    obtain ⟨⟨hs, fs⟩, hr, heq⟩ := map_eq_some_iff.mp h
    cases heq
    refine hi.run hg (fun x d hf => hp x d ?_) (HalterFrame.moves hr)
    rw [hg, hf]
    rfl
  | mad ctx cancelctx halt | cancel ctx =>
    cases h
    exact hi
  | runMad k case =>
    simp only [Halters.step] at h
    split at h
    · cases h
    rename_i m hk
    obtain ⟨⟨m', hs, cancelled⟩, hr, heq⟩ := map_eq_some_iff.mp h
    cases heq
    obtain ⟨hsame, hkept, hclosed⟩ := Mad.moves hr
    intro x d hx hd
    have hd : d ∈ (s.halters x).downstream := hsame x ▸ hd
    by_cases hold : (s.halters x).reqStop = true
    · exact (hi x d hold hd).imp (hkept d) id
    obtain hx | ⟨rfl, hpc, rfl⟩ := hclosed x hx
    · exact absurd hx hold
    · exact (hp m hk hpc (by simpa using hold) d hd).imp (hkept d) id

theorem covered_run (hp : Along step Passing newHalters as) (h : exec step newHalters as = some s) :
    s.Covered := by
  refine run_invariant (I := Covered) (fun _ _ _ => Covered.step) ?_ hp h
  rintro x d ⟨⟩

def Quiet (s : Halters ι κ χ) : Prop := ∀ i, ∀ f ∈ s.gos i, f.requesting = false

/-- A stop request has reached all that is downstream once no call is left that carries it. -/
theorem stop_reaches_downstream (hp : Along step Passing newHalters as)
    (h : exec step (newHalters : Halters ι κ χ) as = some s) (hq : s.Quiet)
    (hs : (s.halters x).reqStop = true) (hr : Relation.ReflTransGen s.Downstream x d) :
    (s.halters d).reqStop = true := by
  have hcov := covered_run hp h
  induction hr with
  | refl => exact hs
  | tail _ hyd ih =>
    obtain hdone | ⟨i, f, hmem, hreach⟩ := hcov _ _ ih hyd
    · exact hdone
    · cases (hq i f hmem).symm.trans hreach.requesting

/-- One Halter is put below another, whose stop is then requested by two goroutines, with a third
Halter attached in between. -/
def stopTwice : List (Act (Fin 2) (Fin 3) Unit) :=
  [.call 0 (.addDownstream 0 1), .run 0 none, .run 0 none, .call 0 (.requestStop 0), .run 0 none,
    .call 1 (.requestStop 2), .run 1 none, .run 1 none, .run 1 none,
    .call 1 (.addDownstream 0 2), .run 1 none, .run 1 none,
    .run 0 none, .run 0 (some 2), .run 0 none, .run 0 none, .run 0 none,
    .run 0 (some 1), .run 0 none, .run 0 none, .run 0 none, .run 0 none]

section

variable [Fintype ι] [Fintype κ]

instance (h d : κ) : (f : HalterFrame κ) → Decidable (f.Reaches h d)
  | .requestStop _ | .lockRange _ => inferInstanceAs (Decidable (_ = _))
  | .range .. => inferInstanceAs (Decidable (_ ∧ _))
  | .lockWait _ | .wait .. | .markDone _ | .addDownstream .. | .removeDownstream ..
  | .addUpstream .. | .removeUpstream .. => isFalse id

instance (s : Halters ι κ χ) (h d : κ) : Decidable (s.Reached h d) :=
  inferInstanceAs (Decidable (_ ∨ ∃ i, ∃ f ∈ s.gos i, f.Reaches h d))

instance (s : Halters ι κ χ) : (a : Act ι κ χ) → Decidable (s.Passing a)
  | .run .. => inferInstanceAs (Decidable (∀ h d, _ → _ → s.Reached h d))
  | .runMad k .cchan => inferInstanceAs (Decidable (∀ m ∈ s.mads[k]?, _ → _ → ∀ d ∈ _, _))
  | .runMad _ .hchan1 | .runMad _ .hchan2 | .call .. | .mad .. | .cancel _ => isTrue trivial

end

theorem stop_reaches_downstream_stopTwice :
    ∃ s : Halters (Fin 2) (Fin 3) Unit, exec step newHalters stopTwice = some s ∧ s.Quiet ∧
      (s.halters 0).reqStop = true ∧ s.Downstream 0 1 ∧ s.Downstream 0 2 ∧
        (s.halters 1).reqStop = true ∧ (s.halters 2).reqStop = true := by
  have hp : Along step Passing newHalters stopTwice := by decide
  have h : ((exec step newHalters stopTwice).any fun s : Halters (Fin 2) (Fin 3) Unit =>
      decide ((∀ i, s.gos i = []) ∧ (s.halters 0).reqStop = true ∧ s.Downstream 0 1 ∧
        s.Downstream 0 2)) = true := by decide
  obtain ⟨s, hs, h⟩ := (any_eq_true _ _).mp h
  obtain ⟨hidle, hstop, h₁, h₂⟩ := of_decide_eq_true h
  have hq : s.Quiet := by
    intro i f hf
    rw [hidle] at hf
    cases hf
  exact ⟨s, hs, hq, hstop, h₁, h₂, stop_reaches_downstream hp hs hq hstop (.single h₁),
    stop_reaches_downstream hp hs hq hstop (.single h₂)⟩

/-- Nothing is going on, but a Halter below a stopped one is not stopped. -/
def Missed (s : Halters Unit (Fin 2) Unit) : Prop :=
  (∀ i, s.gos i = []) ∧ (∀ m ∈ s.mads, m.pc = .returned) ∧ (s.halters 0).reqStop = true ∧
    s.Downstream 0 1 ∧ (s.halters 1).reqStop = false

instance (s : Halters Unit (Fin 2) Unit) : Decidable s.Missed :=
  inferInstanceAs (Decidable (_ ∧ _))

def attachedLate : List (Act Unit (Fin 2) Unit) :=
  [.call () (.requestStop 0), .run () none, .run () none, .run () none,
    .call () (.addDownstream 0 1), .run () none, .run () none]

def stoppedByContext : List (Act Unit (Fin 2) Unit) :=
  [.call () (.addDownstream 0 1), .run () none, .run () none, .mad () (some ()) 0, .cancel (),
    .runMad 0 .cchan, .runMad 0 .cchan, .runMad 0 .hchan1]

theorem stop_misses_downstream :
    (∃ s, exec step newHalters attachedLate = some s ∧ s.Missed) ∧
      ∃ s, exec step newHalters stoppedByContext = some s ∧ s.Missed := by
  have h₁ : ((exec step newHalters attachedLate).any fun s => decide s.Missed) = true := by decide
  have h₂ : ((exec step newHalters stoppedByContext).any fun s => decide s.Missed) = true := by
    decide
  obtain ⟨s₁, hs₁, hm₁⟩ := (any_eq_true _ _).mp h₁
  obtain ⟨s₂, hs₂, hm₂⟩ := (any_eq_true _ _).mp h₂
  exact ⟨⟨s₁, hs₁, of_decide_eq_true hm₁⟩, s₂, hs₂, of_decide_eq_true hm₂⟩

end Halters
end XCryptoSsh
