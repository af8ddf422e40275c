import XCryptoSsh.Agent
import XCryptoSsh.CertBytes

namespace XCryptoSsh
open Go Call StructType KeyAlgo
set_option autoImplicit true

inductive Cut : Bytes → Prop
  | short (h : rest.length < 4) : Cut (agentConstrainLifetime :: rest)
  | lifetime (h : 4 ≤ rest.length) (hc : Cut (rest.drop 4)) : Cut (agentConstrainLifetime :: rest)
  | confirm (hc : Cut rest) : Cut (agentConstrainConfirm :: rest)
  | extension {name details rest rest' : Bytes}
      (h : unmarshal constrainExtensionAgentMsg (agentConstrainExtension :: rest) =
        .ok (name, details, rest', ()))
      (hc : Cut rest') : Cut (agentConstrainExtension :: rest)

theorem not_cut_nil : ¬Cut [] := nofun

theorem cut_lifetime_iff (h : 4 ≤ rest.length) :
    Cut (agentConstrainLifetime :: rest) ↔ Cut (rest.drop 4) := by
  constructor
  · intro hc
    cases hc with
    | short h' => exact absurd h (Nat.not_le.mpr h')
    | lifetime _ hc => exact hc
  · exact .lifetime h

theorem cut_confirm_iff : Cut (agentConstrainConfirm :: rest) ↔ Cut rest := by
  constructor
  · intro hc
    cases hc with
    | confirm hc => exact hc
  · exact .confirm

theorem cut_extension_iff {name details rest' : Bytes} {u : Unit}
    (h : unmarshal constrainExtensionAgentMsg (agentConstrainExtension :: rest) =
      .ok (name, details, rest', u)) :
    Cut (agentConstrainExtension :: rest) ↔ Cut rest' := by
  constructor
  · intro hc
    cases hc with
    | extension h' hc =>
      cases h.symm.trans h'
      exact hc
  · exact .extension h

theorem parseConstraintsFrom_eq_panic_iff (acc : Constraints) (c : Bytes) :
    parseConstraintsFrom acc c = .panic ↔ Cut c := by
  induction acc, c using parseConstraintsFrom.induct with
  | case1 acc =>
    rw [parseConstraintsFrom]
    exact iff_of_false nofun not_cut_nil
  | case2 acc rest hlen =>
    rw [parseConstraintsFrom, if_pos rfl, if_pos hlen]
    exact iff_of_true rfl (.short hlen)
  | case3 acc rest hlen ih =>
    rw [parseConstraintsFrom, if_pos rfl, if_neg hlen, cut_lifetime_iff (Nat.le_of_not_lt hlen)]
    exact ih
  | case4 acc rest hx ih =>
    rw [parseConstraintsFrom, if_neg hx, if_pos rfl, cut_confirm_iff]
    exact ih
  | case5 acc rest e hx hx' h =>
    rw [parseConstraintsFrom, if_neg hx, if_neg hx', if_pos rfl]
    split
    · refine iff_of_false nofun fun hc => ?_
      cases hc with
      | extension h' =>
        cases h.symm.trans h'
    · rename_i h'
      cases h.symm.trans h'
  | case6 acc rest name details rest' u hx hx' h hlt ih =>
    rw [parseConstraintsFrom, if_neg hx, if_neg hx', if_pos rfl, cut_extension_iff h, ← ih]
    split
    · rename_i h'
      cases h.symm.trans h'
    · rename_i h'
      cases h.symm.trans h'
      rfl
  | case7 acc x rest hx hx' hx'' =>
    rw [parseConstraintsFrom, if_neg hx, if_neg hx', if_neg hx'']
    refine iff_of_false nofun fun hc => ?_
    cases hc with
    | short | lifetime => exact hx rfl
    | confirm => exact hx' rfl
    | extension => exact hx'' rfl

def TypedAs (req type : Bytes) : Prop :=
  ∃ rest : Bytes, unmarshal identityRecord req = .ok (type, rest, ())

/-- `ed25519.PrivateKey` is used on keys of its size only. -/
def PrivateKey.sound : PrivateKey → Bool
  | .ed25519 key => key.length == 64
  | _ => true

/-- The server cannot make a key of it: `Precompute` or the parsing of the constraints panics, or
the agent is handed a key that is not sound. -/
def Identity.Explosive (R : Rsa) (x : Identity) : Prop :=
  (∃ key, x.privateKey = .rsa key ∧ R.precompute key = none) ∨ Cut x.constraints ∨
    x.privateKey.sound = false ∧ ∃ cs, parseConstraints x.constraints = .ok cs

def Explosive (E : Elliptic) (R : Rsa) (req : Bytes) : Prop :=
  ∃ type id, TypedAs req type ∧ parseIdentity E type req = .ok id ∧ id.Explosive R

/-- The server panics, or it hands the agent a key that is not sound. -/
def Endangers : Result Err AddedKey → Prop
  | .ok key => key.privateKey.sound = false
  | .error _ => False
  | .panic => True

theorem endangers_setConstraints {key : AddedKey} {c : Bytes} :
    Endangers (setConstraints key c) ↔ Cut c ∨
      key.privateKey.sound = false ∧ ∃ cs, parseConstraints c = .ok cs := by
  rw [← parseConstraintsFrom_eq_panic_iff {}]
  change Endangers (parseConstraints c >>= _) ↔ parseConstraints c = .panic ∨ _
  cases parseConstraints c with
  | ok cs => exact ⟨fun h => .inr ⟨h, cs, rfl⟩, fun h => (h.resolve_left nofun).1⟩
  | error e => exact iff_of_false id (by rintro (⟨⟨⟩⟩ | ⟨-, _, ⟨⟩⟩))
  | panic => exact iff_of_true trivial (.inl rfl)

theorem endangers_addedKey {x : Identity} : Endangers (x.addedKey R) ↔ x.Explosive R := by
  obtain ⟨priv, cert, comment, c⟩ := x
  have hset := @endangers_setConstraints ⟨priv, cert, comment, 0, false, []⟩ c
  refine Iff.trans ?_ (or_congr_right hset)
  cases priv with
  | rsa key =>
    cases hp : R.precompute key with
    | none => simp [Identity.addedKey, hp, Result.ofOption, bind, Endangers]
    | some _ => simp [Identity.addedKey, hp, Result.ofOption]
  | _ => exact (or_iff_right (by simp)).symm

theorem ofExcept_bind_ne_panic {x : Except Err α} {f : α → Result Err β}
    (h : ∀ a, f a ≠ .panic) : (Result.ofExcept x >>= f) ≠ .panic := by
  cases x with
  | ok a => exact h a
  | error e => nofun

theorem unmarshalCertKey_bind_ne_panic {cert : Certificate × PublicKey} {t : StructType}
    {f : Vals t.fields → Result Err α} (h : ∀ w, f w ≠ .panic) :
    (unmarshalCertKey E cert t wrap >>= f) ≠ .panic := by
  unfold unmarshalCertKey
  rw [RawKey.marshal_eq]
  dsimp only [Result.ofOption, Result.ok_bind]
  split
  · nofun
  · exact h _

theorem pure_ne_panic {a : α} : (pure a : Result Err α) ≠ .panic := by
  change Result.ok a ≠ _
  nofun

theorem parseIdentity_ne_panic : parseIdentity E type req ≠ .panic := by
  unfold parseIdentity parsePlainIdentity parseCertIdentity
  split
  · split
    all_goals
      refine ofExcept_bind_ne_panic fun _ => ?_
      first | exact pure_ne_panic | exact ofExcept_bind_ne_panic fun _ => pure_ne_panic
  split
  · split
    all_goals
      refine ofExcept_bind_ne_panic fun _ => ofExcept_bind_ne_panic fun _ => ?_
      try refine unmarshalCertKey_bind_ne_panic fun _ => ?_
      first | exact pure_ne_panic | exact ofExcept_bind_ne_panic fun _ => pure_ne_panic
  · nofun

structure Harmless (E : Elliptic) (R : Rsa) (req : Bytes) : Prop where
  nonempty : req ≠ []
  identity : ¬Explosive E R req

/-- While only sound keys are added every call returns, and no pointer without an error is nil;
`Inv` are the states such calls lead to. -/
structure Agent.Returns (A : Agent σ) (Inv : σ → Prop) : Prop where
  list : ∀ s, Inv s → A.list.wp (fun keys s' => Inv s' ∧ ∀ k ∈ keys, k ≠ none) Inv s
  sign : ∀ k d s, Inv s → (A.sign k d).wp (fun sig s' => Inv s' ∧ sig ≠ none) Inv s
  add : ∀ k s, Inv s → k.privateKey.sound = true → (A.add k).wp (fun _ => Inv) Inv s
  remove : ∀ k s, Inv s → (A.remove k).wp (fun _ => Inv) Inv s
  removeAll : ∀ s, Inv s → A.removeAll.wp (fun _ => Inv) Inv s
  lock : ∀ p s, Inv s → (A.lock p).wp (fun _ => Inv) Inv s
  unlock : ∀ p s, Inv s → (A.unlock p).wp (fun _ => Inv) Inv s

section Server

variable {σ : Type} {E : Elliptic} {R : Rsa} {A : Agent σ} {Inv : σ → Prop} {s : σ}

theorem marshalKeys_isSome (h : ∀ k ∈ keys, k ≠ none) : ∃ b, marshalKeys keys = some b := by
  induction keys with
  | nil => exact ⟨[], rfl⟩
  | cons k keys ih =>
    obtain ⟨bs, hbs⟩ := ih fun k hk => h k (List.mem_cons_of_mem _ hk)
    obtain ⟨k, rfl⟩ := Option.ne_none_iff_exists'.mp (h k List.mem_cons_self)
    refine ⟨keyRecord.encode (k.blob, k.comment, ()) ++ bs, ?_⟩
    have hk : marshalKey k = some (keyRecord.encode (k.blob, k.comment, ())) :=
      marshal_eq _ _
    change (marshalKey k >>= fun b => marshalKeys keys >>= fun bs => some (b ++ bs)) = _
    rw [hk, hbs]
    rfl

theorem tag_of_typedAs (h : TypedAs (x :: body) type) :
    x = agentAddIdConstrained ∨ x = agentAddIdentity := by
  obtain ⟨rest, h⟩ := h
  obtain ⟨-, body', -, ⟨h, -⟩ | ⟨y, hy, -, he⟩⟩ := unmarshal_eq_ok.mp h
  · cases h
  cases he
  simp only [identityRecord, List.mem_cons, List.not_mem_nil, or_false] at hy
  exact hy.symm

theorem wp_unmarshal {t : StructType} {f : Vals t.fields → Call Err σ α} {Q : α → σ → Prop}
    (hs : Inv s) (h : ∀ m, unmarshal t b = .ok m → (f m).wp Q Inv s) :
    (Call.ofExcept (unmarshal t b) >>= f).wp Q Inv s := by
  rw [wp_bind]
  unfold Call.wp Call.ofExcept
  cases hm : unmarshal t b with
  | error e => exact hs
  | ok m => exact h m hm

theorem wp_requestKey {f : AgentKey → Call Err σ α} {Q : α → σ → Prop} (hs : Inv s)
    (h : ∀ k, (f k).wp Q Inv s) : (requestKey b >>= f).wp Q Inv s := by
  rw [wp_bind]
  exact wp_unmarshal hs fun m _ => h _

theorem wp_then_pure {y : Call Err σ Unit} {a : α} {Q : α → σ → Prop}
    (h : y.wp (fun _ => Inv) Inv s) (hQ : ∀ s, Inv s → Q a s) :
    (y >>= fun _ => pure a).wp Q Inv s :=
  wp_bind.mpr (wp_mono h (fun _ => hQ) fun _ h => h)

theorem wp_insertIdentity (hA : A.Returns Inv) (h : ¬Explosive E R req) (hs : Inv s) :
    (insertIdentity E R A req).wp (fun _ => Inv) Inv s := by
  refine wp_unmarshal hs fun ⟨type, rest, u⟩ hr => wp_bind.mpr ?_
  unfold Call.wp Call.ofResult
  cases hp : parseIdentity E type req with
  | error e => exact hs
  | panic => exact parseIdentity_ne_panic hp
  | ok id =>
    have hsafe : ¬Endangers (id.addedKey R) := fun hbad =>
      h ⟨type, id, ⟨rest, hr⟩, hp, endangers_addedKey.mp hbad⟩
    refine wp_bind.mpr ?_
    unfold Call.wp
    cases hk : id.addedKey R with
    | ok key =>
      rw [hk] at hsafe
      exact hA.add key s hs (Bool.not_eq_false _ ▸ hsafe)
    | error e => exact hs
    | panic =>
      rw [hk] at hsafe
      exact hsafe trivial

theorem wp_processRequest {Q : Option AgentMsg → σ → Prop} (hA : A.Returns Inv)
    (h : Harmless E R req) (hs : Inv s) (hnone : ∀ s, Inv s → Q none s)
    (hv1 : ∀ s, Inv s → Q (some ⟨agentV1IdentityMsg, (0 : UInt32), ()⟩) s)
    (hsign : ∀ k d, (A.sign k d).wp (fun sig s' => ∀ b,
      sig ≠ none ∧ Q (some ⟨signResponseAgentMsg, b, ()⟩) s') Inv s)
    (hlist : A.list.wp (fun keys s' => ∀ n b,
      (∀ k ∈ keys, k ≠ none) ∧ Q (some ⟨identitiesAnswerAgentMsg, n, b, ()⟩) s') Inv s) :
    (processRequest E R A req).wp Q Inv s := by
  obtain ⟨x, body, rfl⟩ := List.exists_cons_of_ne_nil h.nonempty
  unfold processRequest
  refine wp_bind.mpr (wp_inRange.mpr ⟨x, rfl, ?_⟩)
  refine wp_ite.mpr ⟨fun _ => hv1 s hs, fun _ => ?_⟩
  refine wp_ite.mpr ⟨fun _ => hnone s hs, fun _ => ?_⟩
  refine wp_ite.mpr ⟨fun _ => ?_, fun _ => ?_⟩
  · exact wp_unmarshal hs fun m _ => wp_requestKey hs fun k =>
      wp_then_pure (hA.remove k s hs) hnone
  refine wp_ite.mpr ⟨fun _ => wp_then_pure (hA.removeAll s hs) hnone, fun _ => ?_⟩
  refine wp_ite.mpr ⟨fun _ => ?_, fun _ => ?_⟩
  · exact wp_unmarshal hs fun m _ => wp_then_pure (hA.lock m.1 s hs) hnone
  refine wp_ite.mpr ⟨fun _ => ?_, fun _ => ?_⟩
  · exact wp_unmarshal hs fun m _ => wp_then_pure (hA.unlock m.1 s hs) hnone
  refine wp_ite.mpr ⟨fun _ => ?_, fun _ => ?_⟩
  · refine wp_unmarshal hs fun m _ => wp_requestKey hs fun k => wp_bind.mpr ?_
    refine wp_mono (hsign k m.2.1) (fun sig s' h => ?_) fun _ h => h
    obtain ⟨sig, rfl⟩ := Option.ne_none_iff_exists'.mp (h []).1
    refine wp_bind.mpr (wp_inRange.mpr ⟨sig, rfl, ?_⟩)
    exact wp_bind.mpr (wp_inRange.mpr ⟨_, marshal_eq _ _, (h _).2⟩)
  refine wp_ite.mpr ⟨fun _ => ?_, fun _ => ?_⟩
  · refine wp_bind.mpr (wp_mono hlist (fun keys s' h => ?_) fun _ h => h)
    obtain ⟨b, hb⟩ := marshalKeys_isSome (h (0 : UInt32) []).1
    exact wp_bind.mpr (wp_inRange.mpr ⟨b, hb, (h _ b).2⟩)
  refine wp_ite.mpr ⟨fun _ => ?_, fun _ => hs⟩
  exact wp_then_pure (wp_insertIdentity hA h.identity hs) hnone

theorem processRequestBytes_of_wp {Q : Option AgentMsg → σ → Prop} (hne : req ≠ [])
    (hw : (processRequest E R A req).wp Q Inv s) :
    ∃ rep s', processRequestBytes E R A req s = (.ok rep, s') ∧
      (Inv s' ∧ rep = [agentFailure] ∨ Q none s' ∧ rep = [agentSuccess] ∨
        ∃ m, Q (some m) s' ∧ rep = m.type.encode m.vals) := by
  unfold Call.wp at hw
  unfold processRequestBytes
  cases hr : processRequest E R A req s with
  | mk r s' =>
    rw [hr] at hw
    cases r with
    | ok rep =>
      cases rep with
      | none => exact ⟨_, s', rfl, .inr (.inl ⟨hw, rfl⟩)⟩
      | some rep =>
        refine ⟨rep.type.encode rep.vals, s', ?_, .inr (.inr ⟨rep, hw, rfl⟩)⟩
        simp only [marshal_eq, Result.ofOption]
    | error e => exact ⟨[agentFailure], s', if_neg hne, .inl ⟨hw, rfl⟩⟩
    | panic => exact hw.elim

theorem processRequestBytes_of_harmless (hA : A.Returns Inv) (h : Harmless E R req) (hs : Inv s) :
    ∃ rep s', processRequestBytes E R A req s = (.ok rep, s') ∧ Inv s' := by
  have hw : (processRequest E R A req).wp (fun _ => Inv) Inv s :=
    wp_processRequest hA h hs (fun _ h => h) (fun _ h => h)
      (fun k d => wp_mono (hA.sign k d s hs) (fun _ _ h _ => ⟨h.2, h.1⟩) fun _ h => h)
      (wp_mono (hA.list s hs) (fun _ _ h _ _ => ⟨h.2, h.1⟩) fun _ h => h)
  obtain ⟨rep, s', hrep, ⟨hs', -⟩ | ⟨hs', -⟩ | ⟨_, hs', -⟩⟩ :=
    processRequestBytes_of_wp h.nonempty hw
  all_goals exact ⟨rep, s', hrep, hs'⟩

/-- The requests of a stream, up to the first that is cut off or too large. -/
def requests (input : Bytes) : List Bytes :=
  match h : nextRequest input with
  | none => []
  | some (req, rest) =>
    have _ := length_of_nextRequest h
    req :: requests rest
termination_by input.length

theorem requests_of_none (h : nextRequest input = none) : requests input = [] := by
  rw [requests]
  split
  · rfl
  rename_i h'
  cases h.symm.trans h'

theorem requests_of_some (h : nextRequest input = some (req, rest)) :
    requests input = req :: requests rest := by
  rw [requests]
  split
  · rename_i h'
    cases h.symm.trans h'
  · rename_i h'
    cases h.symm.trans h'
    rfl

theorem sendReply_ne_panic (b : Bytes) (s : σ × ReadWriter) : (sendReply b s).1 ≠ .panic := by
  have hw (b : Bytes) (t : σ × ReadWriter) : (writeConn b t).1 ≠ .panic := by
    unfold writeConn
    split <;> nofun
  unfold sendReply
  rw [← wp_true_iff, wp_bind, wp_failIf]
  refine ⟨fun _ => trivial, fun _ => ?_⟩
  rw [wp_bind]
  exact wp_mono (wp_true_iff.mpr (hw _ s))
    (fun _ t _ => wp_true_iff.mpr (hw b t)) fun _ h => h

theorem sendReply_of_le {c : ReadWriter} (s : σ) (h : b.length ≤ maxAgentResponseBytes)
    (hc : c.outcomes = []) :
    sendReply b (s, c) =
      (.ok (), s, { c with output := c.output ++ putUint32 (u32 b.length) ++ b }) := by
  have hw (b : Bytes) (c : ReadWriter) (hc : c.outcomes = []) :
      writeConn b (s, c) = (.ok (), s, { c with output := c.output ++ b }) := by
    simp only [writeConn, hc]
  unfold sendReply
  rw [failIf_bind_of_not (Nat.not_lt.mpr h), bind_of_ok (hw _ c hc)]
  exact hw b _ hc

theorem serveAgent_eq (s : σ × ReadWriter) : serveAgent E R A s =
    match serveRequest E R A s with
    | (.ok _, s') => serveAgent E R A s'
    | (.error e, s') => (.error e, s')
    | (.panic, s') => (.panic, s') := by
  rw [serveAgent]
  split <;> rename_i h <;> simp only [h]

theorem serveAgent_of_harmless (hA : A.Returns Inv) (hs : Inv s) (c : ReadWriter)
    (h : ∀ req ∈ requests c.input.bytes, Harmless E R req) :
    ∃ e, (serveAgent E R A (s, c)).1 = .error e := by
  -- the bytes that are left decrease from round to round
  induction hn : c.input.bytes.length using Nat.strong_induction_on generalizing s c with
  | h n ih =>
    rw [serveAgent_eq]
    cases hreq : nextRequest c.input.bytes with
    | none =>
      obtain ⟨e, r, he⟩ := serveRequest_none E R A (s := s) hreq
      rw [he]
      exact ⟨e, rfl⟩
    | some p =>
      obtain ⟨req, rest⟩ := p
      rw [requests_of_some hreq] at h
      obtain ⟨rep, s', hrep, hs'⟩ :=
        processRequestBytes_of_harmless hA (h req List.mem_cons_self) hs
      have hoff : offConn (processRequestBytes E R A req)
          (s, { c with input.bytes := rest }) =
          (.ok rep, s', { c with input.bytes := rest }) :=
        offConn_eq_ok.mpr ⟨s', hrep, rfl⟩
      rw [serveRequest_some E R A hreq, bind_of_ok hoff]
      have hnp := sendReply_ne_panic rep (s', { c with input.bytes := rest })
      have hframe := sendReply_frame rep s' { c with input.bytes := rest }
      cases hsend : sendReply rep (s', { c with input.bytes := rest }) with
      | mk r t =>
        rw [hsend] at hnp hframe
        cases r with
        | ok u =>
          have hbytes : t.2.input.bytes = rest := congrArg Reader.bytes hframe.2
          refine ih rest.length (hn ▸ length_of_nextRequest hreq) (hframe.1 ▸ hs') t.2 ?_
            (by rw [hbytes])
          rw [hbytes]
          exact fun req hm => h req (List.mem_cons_of_mem _ hm)
        | error e => exact ⟨e, rfl⟩
        | panic => exact absurd rfl hnp

end Server

/-- The operations of `crypto/ed25519` panic on a key that is not sound. -/
def Agent.refusing : Agent Unit where
  list := .fail (.text "refused")
  sign _ _ := .fail (.text "refused")
  add k := if k.privateKey.sound then .fail (.text "refused") else .ofResult .panic
  remove _ := .fail (.text "refused")
  removeAll := .fail (.text "refused")
  lock _ := .fail (.text "refused")
  unlock _ := .fail (.text "refused")

theorem Agent.returns_refusing : refusing.Returns fun _ => True where
  list _ _ := trivial
  sign _ _ _ _ := trivial
  add _ _ _ hk := wp_ite.mpr ⟨fun _ => trivial, fun h => absurd hk h⟩
  remove _ _ _ := trivial
  removeAll _ _ := trivial
  lock _ _ _ := trivial
  unlock _ _ _ := trivial

section Refusing

variable {E : Elliptic} {R : Rsa}

theorem length_reply_refusing (h : Harmless E R req) :
    ∃ rep, processRequestBytes E R .refusing req () = (.ok rep, ()) ∧ rep.length ≤ 5 := by
  have hw : (processRequest E R .refusing req).wp
      (fun rep _ => rep = none ∨ rep = some ⟨agentV1IdentityMsg, (0 : UInt32), ()⟩)
      (fun _ => True) () :=
    wp_processRequest Agent.returns_refusing h trivial (fun _ _ => .inl rfl) (fun _ _ => .inr rfl)
      (fun _ _ => trivial) trivial
  obtain ⟨rep, _, hrep, ⟨-, rfl⟩ | ⟨-, rfl⟩ | ⟨m, hm, rfl⟩⟩ :=
    processRequestBytes_of_wp h.nonempty hw
  · exact ⟨_, hrep, by decide⟩
  · exact ⟨_, hrep, by decide⟩
  · cases hm.resolve_left nofun
    exact ⟨_, hrep, by decide⟩

theorem processRequest_refusing (h : ¬Harmless E R req) :
    (processRequest E R .refusing req ()).1 = .panic := by
  cases req with
  | nil => rfl
  | cons x body =>
    have hexplosive : Explosive E R (x :: body) := by
      by_contra hno
      exact h ⟨List.cons_ne_nil x body, hno⟩
    obtain ⟨type, id, ht, hparse, hbad⟩ := hexplosive
    have hbad := endangers_addedKey.mpr hbad
    have hinsert : (insertIdentity E R .refusing (x :: body) ()).1 = .panic := by
      obtain ⟨rest, hr⟩ := ht
      refine bind_eq_panic.mpr (.inr ⟨_, (), ofExcept_eq_ok.mpr ⟨hr, rfl⟩, ?_⟩)
      refine bind_eq_panic.mpr (.inr ⟨id, (), ofResult_eq_ok.mpr ⟨hparse, rfl⟩, ?_⟩)
      cases hk : id.addedKey R with
      | ok key =>
        rw [hk] at hbad
        have hadd : (Agent.refusing.add key ()).1 = .panic := by
          simp only [Agent.refusing, if_neg (Bool.eq_false_iff.mp hbad)]
          rfl
        exact bind_eq_panic.mpr (.inr ⟨key, (), rfl, hadd⟩)
      | error e =>
        rw [hk] at hbad
        exact hbad.elim
      | panic => exact bind_eq_panic.mpr (.inl rfl)
    have hadd : processRequest E R .refusing (x :: body) () =
        (insertIdentity E R .refusing (x :: body) >>= fun _ => pure none) () := by
      rcases tag_of_typedAs ht with rfl | rfl <;> rfl
    rw [hadd]
    exact bind_eq_panic.mpr (.inl hinsert)

theorem serveAgent_refusing (c : ReadWriter) (hc : c.outcomes = [])
    (h : ∃ req ∈ requests c.input.bytes, ¬Harmless E R req) :
    (serveAgent E R .refusing ((), c)).1 = .panic := by
  induction hn : c.input.bytes.length using Nat.strong_induction_on generalizing c with
  | h n ih =>
    obtain ⟨bad, hbad, hb⟩ := h
    rw [serveAgent_eq]
    cases hreq : nextRequest c.input.bytes with
    | none =>
      rw [requests_of_none hreq] at hbad
      cases hbad
    | some p =>
      obtain ⟨req, rest⟩ := p
      rw [requests_of_some hreq] at hbad
      rw [serveRequest_some E R _ hreq]
      by_cases hh : Harmless E R req
      · obtain ⟨rep, hrep, hlen⟩ := length_reply_refusing hh
        have hoff : offConn (processRequestBytes E R .refusing req)
            ((), { c with input.bytes := rest }) =
            (.ok rep, (), { c with input.bytes := rest }) :=
          offConn_eq_ok.mpr ⟨(), hrep, rfl⟩
        have hle : rep.length ≤ maxAgentResponseBytes := hlen.trans (by decide)
        rw [bind_of_ok hoff, sendReply_of_le
          (c := { c with input.bytes := rest }) () hle hc]
        refine ih rest.length (hn ▸ length_of_nextRequest hreq) _ hc ⟨bad, ?_, hb⟩ rfl
        rcases List.mem_cons.mp hbad with rfl | hm
        · exact absurd hh hb
        · exact hm
      · have hp : (processRequestBytes E R .refusing req ()).1 = .panic := by
          have hpanic := processRequest_refusing hh
          unfold processRequestBytes
          cases hr : processRequest E R .refusing req () with
          | mk r s' =>
            rw [hr] at hpanic
            cases hpanic
            rfl
        have hpanic : ((offConn (processRequestBytes E R .refusing req) >>= sendReply)
            ((), { c with input.bytes := rest })).1 = .panic :=
          bind_eq_panic.mpr (.inl hp)
        cases hs : (offConn (processRequestBytes E R .refusing req) >>= sendReply)
            ((), { c with input.bytes := rest }) with
        | mk r t =>
          rw [hs] at hpanic
          cases hpanic
          rfl

end Refusing

def addEd25519 (priv constraints : Bytes) : Bytes :=
  ed25519KeyMsg.encode (ascii ed25519.name, ([] : Bytes), priv, ([] : Bytes), constraints, ())

theorem typedAs_addEd25519 (hl : (addEd25519 priv c).length < 2 ^ 32) :
    TypedAs (addEd25519 priv c) (ascii ed25519.name) := by
  let rest : Bytes := encodeString [] ++ (encodeString priv ++ (encodeString [] ++ (c ++ [])))
  have he : addEd25519 priv c =
      identityRecord.encode (ascii ed25519.name, rest, ()) := by
    simp [addEd25519, encode, identityRecord, ed25519KeyMsg, encodeFields, Kind.encode,
      rest]
  rw [he] at hl ⊢
  exact ⟨rest, unmarshal_encode_of_length_lt (x := 17) rfl (by decide)
    (by simp [identityRecord]) hl⟩

theorem parseIdentity_addEd25519 (hl : (addEd25519 priv c).length < 2 ^ 32) :
    parseIdentity E (ascii ed25519.name) (addEd25519 priv c) =
      .ok ⟨.ed25519 priv, none, [], c⟩ := by
  have hm : unmarshal ed25519KeyMsg (addEd25519 priv c) =
      .ok (ascii ed25519.name, ([] : Bytes), priv, ([] : Bytes), c, ()) :=
    unmarshal_encode_of_length_lt (x := 17) rfl (by decide) (by simp [ed25519KeyMsg]) hl
  rw [parseIdentity, ofName_name]
  dsimp only [parsePlainIdentity, parseEd25519Key]
  rw [hm]
  rfl

def stream (reqs : List Bytes) : ReadWriter := { input := ⟨reqs.flatMap encodeString, .eof⟩ }

theorem harmless_addEd25519 (hl : (addEd25519 priv c).length < 2 ^ 32)
    (hlen : priv.length = 64) (hcut : ¬Cut c) :
    Harmless E R (addEd25519 priv c) := by
  refine ⟨List.cons_ne_nil _ _, fun ⟨type, id, ⟨rest, hr⟩, hparse, hbad⟩ => ?_⟩
  obtain ⟨rest', hr'⟩ := typedAs_addEd25519 hl
  cases hr'.symm.trans hr
  rw [parseIdentity_addEd25519 hl] at hparse
  cases hparse
  rcases hbad with ⟨_, ⟨⟩, _⟩ | hc | ⟨hs, -⟩
  · exact hcut hc
  · simp [PrivateKey.sound, hlen] at hs

def twoRequests : List Bytes := [[11], addEd25519 (List.replicate 64 7) [1, 0, 0, 0, 9]]

end XCryptoSsh
