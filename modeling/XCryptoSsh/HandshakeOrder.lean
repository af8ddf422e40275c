import XCryptoSsh.HandshakeSteps

namespace XCryptoSsh
open Machine List Option
set_option autoImplicit true

def WriterPc.inside : WriterPc → Bool
  | .check | .push | .unlock _ => true
  | .lock | .done _ => false

def KexPc.inside : KexPc → Bool
  | .pushInit _ | .clear | .notify | .flush _ => true
  | _ => false

def KexPc.finishing : KexPc → Bool
  | .clear | .notify | .flush _ => true
  | _ => false

theorem KexPc.finishing_of_inside {k : KexPc} (h : k.inside = false) : k.finishing = false := by
  cases k <;> first | rfl | cases h

theorem getElem?_setPc (ws : List Writer) (i j : Nat) (pc : WriterPc) :
    (setPc ws i pc)[j]? = if i = j then ws[j]?.map fun w => { w with pc := pc } else ws[j]? := by
  simp only [setPc, getElem?_modify]
  split <;> simp

theorem length_setPc (ws : List Writer) (i : Nat) (pc : WriterPc) :
    (setPc ws i pc).length = ws.length := by
  simp only [setPc, length_modify]

theorem setPc_inv {ws : List Writer} {w : Writer} {i j : Nat}
    (h : (setPc ws i pc)[j]? = some w) :
    (j ≠ i ∧ ws[j]? = some w) ∨ (j = i ∧ ∃ w₀, ws[i]? = some w₀ ∧ w = { w₀ with pc := pc }) := by
  rw [getElem?_setPc] at h
  split at h
  · rename_i hij
    subst hij
    simp only [map_eq_some_iff] at h
    obtain ⟨w₀, hw₀, rfl⟩ := h
    exact .inr ⟨rfl, w₀, hw₀, rfl⟩
  · rename_i hij
    exact .inl ⟨fun he => hij he.symm, h⟩

theorem pushing_setPc {P : Prop} (h : ∀ (i : Nat) (p : Packet), ws[i]? = some ⟨p, .push⟩ → P)
    (hp : pc = .push → P) (j : Nat) (p : Packet) (hj : (setPc ws i pc)[j]? = some ⟨p, .push⟩) :
    P := by
  rcases setPc_inv hj with ⟨_, hj⟩ | ⟨_, w₀, _, hw₀⟩
  · exact h j p hj
  · exact hp (congrArg Writer.pc hw₀).symm

theorem setPc_self {ws : List Writer} {i : Nat} (h : ws[i]? = some w) (pc : WriterPc) :
    (setPc ws i pc)[i]? = some { w with pc := pc } := by
  rw [getElem?_setPc, if_pos rfl, h, map_some]

def appPackets (sent : List ConnWrite) : List Packet :=
  sent.filterMap fun w => if w.origin = .app then some w.packet else none

def returnedNil (ws : List Writer) (i : Nat) : Option Packet :=
  match ws[i]? with
  | some ⟨p, .done none⟩ => some p
  | _ => none

def queued (k : KexPc) (pending : List Packet) : List Packet :=
  match k with
  | .flush todo => todo
  | _ => pending

/-- The packet of the call that has the mutex, when it has come to this point. -/
def heldAt (pc : WriterPc) (mu : Option Holder) (ws : List Writer) : List Packet :=
  match mu with
  | some (.writer i) =>
    match ws[i]? with
    | some w => if w.pc = pc then [w.packet] else []
    | none => []
  | _ => []

def leaving : Option Holder → List Writer → List Packet := heldAt (.unlock none)

theorem appPackets_append (sent : List ConnWrite) (o : Origin) (p : Packet) (r : Option Err) :
    appPackets (sent ++ [⟨o, p, r⟩]) = appPackets sent ++ if o = .app then [p] else [] := by
  simp only [appPackets, filterMap_append, filterMap_cons, filterMap_nil]
  congr 1
  split <;> split <;> simp_all

theorem queued_of_not_finishing {k : KexPc} (h : k.finishing = false) (ps : List Packet) :
    queued k ps = ps := by
  cases k <;> first | rfl | cases h

section

variable {ws : List Writer} {i : Nat} (hw : ws[i]? = some w)

include hw

theorem heldAt_writer :
    heldAt pc (some (.writer i)) ws = if w.pc = pc then [w.packet] else [] := by
  simp only [heldAt, hw]

theorem leaving_writer :
    leaving (some (.writer i)) ws = if w.pc = .unlock none then [w.packet] else [] :=
  heldAt_writer hw

theorem returnedNil_setPc (pc : WriterPc) (j : Nat) : returnedNil (setPc ws i pc) j =
      if i = j then if pc = .done none then some w.packet else none else returnedNil ws j := by
  simp only [returnedNil, getElem?_setPc]
  by_cases hij : i = j
  · subst hij
    simp only [↓reduceIte, hw, map_some]
    split <;> simp_all
  · simp only [hij, ↓reduceIte]

theorem returnedNil_eq_none (hd : w.pc ≠ .done none) : returnedNil ws i = none := by
  simp only [returnedNil, hw]
  split <;> simp_all

theorem filterMap_setPc (hd : w.pc ≠ .done none) (hp : pc ≠ .done none) (took : List Nat) :
    took.filterMap (returnedNil (setPc ws i pc)) = took.filterMap (returnedNil ws) := by
  apply filterMap_congr
  intro j _
  rw [returnedNil_setPc hw, if_neg hp]
  split
  · rename_i hij
    subst hij
    exact (returnedNil_eq_none hw hd).symm
  · rfl

end

namespace HandshakeTransport

variable {t : HandshakeTransport} {w w' : Writer} {i j : Nat}

theorem afterInit_outside (request : Option Packet) : (afterInit request).inside = false := by
  cases request <;> rfl

structure Exclusive (t : HandshakeTransport) : Prop where
  writer : ∀ {i w}, t.writers[i]? = some w → w.pc.inside = true → t.mu = some (.writer i)
  kex : t.kex.inside = true → t.mu = some .kexLoop

theorem exclusive_new (c : HandshakeConfig) : (new c).Exclusive :=
  ⟨fun h => by simp [new] at h, nofun⟩

theorem Exclusive.not_kex_inside (h : t.Exclusive) (hw : t.writers[i]? = some w)
    (hi : w.pc.inside = true) : t.kex.inside = false := by
  cases hk : t.kex.inside with
  | false => rfl
  | true =>
    have he := (h.writer hw hi).symm.trans (h.kex hk)
    cases he

theorem Exclusive.not_push (h : t.Exclusive) (hk : t.kex.inside = true) (i : Nat) (p : Packet) :
    ¬ t.writers[i]? = some ⟨p, .push⟩ :=
  fun hw => by cases hk.symm.trans (h.not_kex_inside hw rfl)

theorem Exclusive.unique (h : t.Exclusive) (hw : t.writers[i]? = some w)
    (hi : w.pc.inside = true) (hw' : t.writers[j]? = some w') (hi' : w'.pc.inside = true) :
    i = j := by
  have he := (h.writer hw hi).symm.trans (h.writer hw' hi')
  simpa using he

theorem Exclusive.writerStep (h : t.Exclusive) (hs : WriterStep t i r t') :
    t'.Exclusive := by
  cases hs with
  | lock hw hmu =>
    constructor
    · intro j w hj hin
      rcases setPc_inv hj with ⟨_, hj⟩ | ⟨rfl, _⟩
      · have hc := h.writer hj hin
        cases hmu.symm.trans hc
      · rfl
    · intro hin
      have hc := h.kex hin
      cases hmu.symm.trans hc
  | unlock hw =>
    constructor
    · intro j w hj hin
      rcases setPc_inv hj with ⟨hne, hj⟩ | ⟨rfl, w₀, _, rfl⟩
      · exact (hne (h.unique hj hin hw rfl)).elim
      · cases hin
    · intro hin
      have hc := h.not_kex_inside hw rfl
      change t.kex.inside = true at hin
      cases hin.symm.trans hc
  | refuse hw | count hw | queue hw | push hw =>
    constructor
    · intro j w hj hin
      rcases setPc_inv hj with ⟨_, hj⟩ | ⟨rfl, _⟩
      · exact h.writer hj hin
      · exact h.writer hw rfl
    · exact h.kex

theorem Exclusive.kexStep (h : t.Exclusive) (hs : KexStep t c t') : t'.Exclusive := by
  have outside {m : Option Holder} (hm : m = t.mu ∨ t.mu = none ∨ t.kex.inside = true) :
      ∀ {i w}, t.writers[i]? = some w → w.pc.inside = true → m = some (.writer i) := by
    intro i w hw hin
    have hmu := h.writer hw hin
    rcases hm with rfl | hm | hm
    · exact hmu
    · cases hm.symm.trans hmu
    · rw [h.kex hm] at hmu
      cases hmu
  cases hs with
  | initLock hk hmu | finish hk hmu => exact ⟨outside (.inr (.inl hmu)), fun _ => rfl⟩
  | initPushed hk =>
    refine ⟨outside (.inr (.inr (by rw [hk]; rfl))), fun hin => ?_⟩
    cases (afterInit_outside _).symm.trans hin
  | initFailed hk | unlock hk => exact ⟨outside (.inr (.inr (by rw [hk]; rfl))), nofun⟩
  | clear hk => exact ⟨h.writer, h.kex⟩
  | cleared hk | notify hk | flush hk =>
    exact ⟨h.writer, fun _ => h.kex (by rw [hk]; rfl)⟩
  | initAlready hk hmu =>
    refine ⟨h.writer, fun hin => ?_⟩
    cases (afterInit_outside _).symm.trans hin
  | exchange hk hx =>
    cases hx <;> exact ⟨h.writer, nofun⟩
  | _ => exact ⟨h.writer, nofun⟩

theorem Exclusive.step (h : t.Exclusive) (hs : t.step a = some t') : t'.Exclusive := by
  cases step_cases hs with
  | call =>
    refine ⟨?_, h.kex⟩
    intro i w hw hin
    simp only [callWritePacket, getElem?_append] at hw
    split at hw
    · exact h.writer hw hin
    rw [getElem?_singleton] at hw
    split at hw
    · cases hw
      revert hin
      split
      · intro hin; cases hin
      · split <;> intro hin <;> cases hin
    · cases hw
  | writer hs => exact h.writerStep hs
  | kex hs => exact h.kexStep hs
  | read hs | drain hs => cases hs <;> exact ⟨h.writer, h.kex⟩
  | requestKeyExchange | halt | receive => exact ⟨h.writer, h.kex⟩

def passed (t : HandshakeTransport) : List Packet := appPackets t.sent

/-- Packets whose `writePacket` call returned nil, in the order the calls took `t.mu`. -/
def accepted (t : HandshakeTransport) : List Packet := t.took.filterMap (returnedNil t.writers)

structure InOrder (t : HandshakeTransport) : Prop where
  exclusive : t.Exclusive
  nodup : t.took.Nodup
  bound : ∀ i ∈ t.took, i < t.writers.length
  entered : ∀ i ∈ t.took, ∀ w, t.writers[i]? = some w → w.pc ≠ .lock
  last : ∀ i, t.mu = some (.writer i) → ∃ l, t.took = l ++ [i]
  pushing : ∀ (i : Nat) (p : Packet), t.writers[i]? = some ⟨p, .push⟩ → t.sentInitMsg = none
  idle : t.sentInitMsg = none → t.kex.finishing = false → t.pendingPackets = []
  order : appPackets t.sent ++ queued t.kex t.pendingPackets =
    t.took.filterMap (returnedNil t.writers) ++ leaving t.mu t.writers

theorem inOrder_new (c : HandshakeConfig) : (new c).InOrder where
  exclusive := exclusive_new c
  nodup := nodup_nil
  bound := by intro i hi; cases hi
  entered := by intro i hi; cases hi
  last := by intro i hi; cases hi
  pushing := by intro i p hi; simp [new] at hi
  idle := fun _ _ => rfl
  order := rfl

section

variable (h : t.InOrder)

include h

theorem InOrder.outside (hw : t.writers[i]? = some w)
    (hi : w.pc.inside = true) : t.kex.finishing = false :=
  KexPc.finishing_of_inside (h.exclusive.not_kex_inside hw hi)

theorem InOrder.bound_setPc (pc : WriterPc) : ∀ j ∈ t.took, j < (setPc t.writers i pc).length := by
  intro j hj
  rw [length_setPc]
  exact h.bound j hj

theorem InOrder.entered_setPc (hp : pc ≠ .lock) :
    ∀ j ∈ t.took, ∀ w, (setPc t.writers i pc)[j]? = some w → w.pc ≠ .lock := by
  intro j hj w hw
  rcases setPc_inv hw with ⟨_, hw⟩ | ⟨_, w₀, _, rfl⟩
  · exact h.entered j hj w hw
  · exact hp

section

variable (hw : t.writers[i]? = some w) (hi : w.pc.inside = true)

include hw hi

theorem InOrder.order_inside :
    appPackets t.sent ++ t.pendingPackets = t.took.filterMap (returnedNil t.writers) ++
      if w.pc = .unlock none then [w.packet] else [] := by
  have ho := h.order
  rwa [queued_of_not_finishing (h.outside hw hi), h.exclusive.writer hw hi,
    leaving_writer hw] at ho

theorem InOrder.last_inside : ∃ l, t.took = l ++ [i] ∧ i ∉ l := by
  obtain ⟨l, hl⟩ := h.last i (h.exclusive.writer hw hi)
  refine ⟨l, hl, ?_⟩
  have hn := h.nodup
  rw [hl, nodup_append] at hn
  intro hm
  exact hn.2.2 i hm i (mem_singleton.2 rfl) rfl

theorem InOrder.order_move (hu : w.pc ≠ .unlock none) (hp : pc ≠ .done none)
    (hs : appPackets out ++ ps = appPackets t.sent ++ t.pendingPackets ++
      if pc = .unlock none then [w.packet] else []) : appPackets out ++ queued t.kex ps =
      t.took.filterMap (returnedNil (setPc t.writers i pc)) ++
        leaving t.mu (setPc t.writers i pc) := by
  have hd : w.pc ≠ .done none := by
    intro hd
    rw [hd] at hi
    cases hi
  have ho := h.order_inside hw hi
  rw [if_neg hu, append_nil] at ho
  rw [queued_of_not_finishing (h.outside hw hi), h.exclusive.writer hw hi,
    leaving_writer (setPc_self hw pc), filterMap_setPc hw hd hp, hs, ho]

end

theorem InOrder.writerStep (hs : WriterStep t i r t') : t'.InOrder := by
  have he := h.exclusive.writerStep hs
  cases hs with
  | lock hw hmu =>
    refine ⟨he, ?_, ?_, ?_, ?_, pushing_setPc h.pushing nofun, h.idle, ?_⟩
    · apply nodup_append.2
      refine ⟨h.nodup, pairwise_singleton _ i, ?_⟩
      intro j hj k hk hjk
      rw [mem_singleton] at hk
      subst hjk hk
      exact h.entered j hj _ hw rfl
    · intro j hj
      rcases mem_append.1 hj with hj | hj
      · exact h.bound_setPc _ j hj
      rw [mem_singleton] at hj
      subst hj
      change j < (setPc t.writers j .check).length
      rw [length_setPc]
      exact (List.getElem?_eq_some_iff.1 hw).1
    · intro j hj w hwj
      rcases setPc_inv hwj with ⟨hne, hwj⟩ | ⟨_, w₀, _, rfl⟩
      · rcases mem_append.1 hj with hj | hj
        · exact h.entered j hj w hwj
        · exact (hne (mem_singleton.1 hj)).elim
      · exact WriterPc.noConfusion
    · intro j hj
      cases hj
      exact ⟨t.took, rfl⟩
    · have ho := h.order
      rw [hmu] at ho
      change appPackets t.sent ++ queued t.kex t.pendingPackets =
        (t.took ++ [i]).filterMap (returnedNil (setPc t.writers i .check)) ++
          leaving (some (.writer i)) (setPc t.writers i .check)
      rw [leaving_writer (setPc_self hw _), filterMap_setPc hw WriterPc.noConfusion
        WriterPc.noConfusion, filterMap_append, ho]
      simp [returnedNil_eq_none hw, leaving, heldAt]
  | refuse hw =>
    refine ⟨he, h.nodup, h.bound_setPc _, h.entered_setPc WriterPc.noConfusion, h.last,
      pushing_setPc h.pushing nofun, h.idle, ?_⟩
    apply h.order_move hw rfl WriterPc.noConfusion WriterPc.noConfusion
    simp [setWriter]
  | count hw hn hs =>
    refine ⟨he, h.nodup, h.bound_setPc _, h.entered_setPc WriterPc.noConfusion, h.last,
      pushing_setPc h.pushing (fun _ => hs), h.idle, ?_⟩
    apply h.order_move hw rfl WriterPc.noConfusion WriterPc.noConfusion
    simp [setWriter]
  | queue hw hn hs =>
    refine ⟨he, h.nodup, h.bound_setPc _, h.entered_setPc WriterPc.noConfusion, h.last,
      pushing_setPc h.pushing nofun, fun hs' => (hs hs').elim, ?_⟩
    apply h.order_move hw rfl WriterPc.noConfusion WriterPc.noConfusion
    simp [setWriter]
  | push hw =>
    refine ⟨he, h.nodup, h.bound_setPc _, h.entered_setPc WriterPc.noConfusion, h.last,
      pushing_setPc h.pushing nofun, h.idle, ?_⟩
    apply h.order_move hw rfl WriterPc.noConfusion WriterPc.noConfusion
    have hq := h.idle (h.pushing i _ hw) (h.outside hw rfl)
    simp only [connWrite, setWriter, appPackets_append, hq]
    simp
  | @unlock p res hw =>
    obtain ⟨l, hl, hil⟩ := h.last_inside hw rfl
    refine ⟨he, h.nodup, h.bound_setPc _, h.entered_setPc WriterPc.noConfusion, ?_,
      pushing_setPc h.pushing nofun, h.idle, ?_⟩
    · intro j hj
      cases hj
    have ho := h.order_inside hw rfl
    change appPackets t.sent ++ queued t.kex t.pendingPackets =
      t.took.filterMap (returnedNil (setPc t.writers i (.done res))) ++ []
    rw [queued_of_not_finishing (h.outside hw rfl), ho, hl, append_nil]
    have hrest : l.filterMap (returnedNil (setPc t.writers i (.done res))) =
        l.filterMap (returnedNil t.writers) := by
      apply filterMap_congr
      intro j hj
      rw [returnedNil_setPc hw, if_neg]
      rintro rfl
      exact hil hj
    rw [filterMap_append, filterMap_append, hrest]
    simp only [filterMap_cons, filterMap_nil,
      returnedNil_eq_none hw WriterPc.noConfusion, returnedNil_setPc hw]
    cases res <;> simp

theorem InOrder.frame {t' : HandshakeTransport} (he : t'.Exclusive) (hw : t'.writers = t.writers)
    (ht : t'.took = t.took) (hmu : ∀ i, t'.mu = some (.writer i) → t.mu = t'.mu)
    (hl : leaving t'.mu t.writers = leaving t.mu t.writers)
    (hp : ∀ (i : Nat) (p : Packet), t.writers[i]? = some ⟨p, .push⟩ →
      t.sentInitMsg = none → t'.sentInitMsg = none)
    (hi : t'.sentInitMsg = none → t'.kex.finishing = false → t'.pendingPackets = [])
    (hq : queued t'.kex t'.pendingPackets = queued t.kex t.pendingPackets)
    (hs : appPackets t'.sent = appPackets t.sent) : t'.InOrder where
  exclusive := he
  nodup := ht ▸ h.nodup
  bound := by
    rw [ht, hw]
    exact h.bound
  entered := by
    rw [ht, hw]
    exact h.entered
  last := by
    intro i hm
    rw [ht]
    exact h.last i ((hmu i hm).trans hm)
  pushing := by
    intro i p hpi
    rw [hw] at hpi
    exact hp i p hpi (h.pushing i p hpi)
  idle := hi
  order := by
    rw [hq, hs, hw, ht, hl]
    exact h.order

end

theorem appPackets_kex (sent : List ConnWrite) (p : Packet) (r : Option Err) :
    appPackets (sent ++ [⟨.kex, p, r⟩]) = appPackets sent := by
  simp [appPackets_append]

theorem appPackets_kexInit (sent : List ConnWrite) (p : Packet) (r : Option Err) :
    appPackets (sent ++ [⟨.kexInit, p, r⟩]) = appPackets sent := by
  simp [appPackets_append]

theorem InOrder.kexFrame {t' : HandshakeTransport} (h : t.InOrder) (he : t'.Exclusive)
    (hw : t'.writers = t.writers) (ht : t'.took = t.took) (hmu : t'.mu = t.mu)
    (hi : t'.sentInitMsg = t.sentInitMsg) (hq : t'.pendingPackets = t.pendingPackets)
    (hf : t.kex.finishing = false) (hf' : t'.kex.finishing = false)
    (hs : appPackets t'.sent = appPackets t.sent) : t'.InOrder := by
  refine h.frame he hw ht (fun i _ => hmu.symm) (by rw [hmu]) (fun _ _ _ h => hi.trans h)
    (fun h₀ _ => ?_) ?_ hs
  · rw [hq]
    exact h.idle (hi.symm.trans h₀) hf
  · rw [queued_of_not_finishing hf, queued_of_not_finishing hf', hq]

theorem afterInit_not_finishing (request : Option Packet) :
    (afterInit request).finishing = false :=
  KexPc.finishing_of_inside (afterInit_outside request)

theorem InOrder.kexStep (h : t.InOrder) (hs : KexStep t c t') (hstop : t.stop = false)
    (hc : ∀ body r, c = .push body r → r = none) : t'.InOrder := by
  have he := h.exclusive.kexStep hs
  have hnp := h.exclusive.not_push
  cases hs with
  | stop hk hs =>
    cases hstop.symm.trans hs
  | initLock hk hmu hs =>
    refine h.frame he rfl rfl (fun i hm => by cases hm) (by rw [hmu]; rfl) (fun _ _ _ h => h)
      (fun h₀ _ => h.idle h₀ (by rw [hk]; rfl)) ?_ rfl
    rw [hk]
    rfl
  | @initPushed request body hk =>
    have hmu := h.exclusive.kex (by rw [hk]; rfl)
    refine h.frame he rfl rfl (fun i hm => by cases hm) (by rw [hmu]; rfl)
      (fun i p hw _ => (hnp (by rw [hk]; rfl) i p hw).elim) (fun h₀ _ => by cases h₀) ?_
      (appPackets_kexInit _ _ _)
    change queued (afterInit request) t.pendingPackets = _
    rw [hk, queued_of_not_finishing (afterInit_not_finishing request)]
    rfl
  | initFailed hk => exact nomatch hc _ _ rfl
  | finish hk hmu =>
    refine h.frame he rfl rfl (fun i hm => by cases hm) (by rw [hmu]; rfl)
      (fun _ _ _ _ => rfl) nofun ?_ rfl
    rw [hk]
    rfl
  | clear hk =>
    exact h.frame he rfl rfl (fun _ _ => rfl) rfl (fun _ _ _ h => h) h.idle rfl rfl
  | cleared hk | notify hk =>
    refine h.frame he rfl rfl (fun _ _ => rfl) rfl (fun _ _ _ h => h)
      nofun ?_ rfl
    rw [hk]
    rfl
  | @flush p todo body hk r =>
    cases hc _ _ rfl
    have ho := h.order
    rw [hk] at ho
    refine ⟨he, h.nodup, h.bound, h.entered, h.last, h.pushing, nofun, ?_⟩
    change appPackets (t.sent ++ [⟨.app, p, none⟩]) ++ todo = _
    rw [appPackets_append, if_pos rfl, append_assoc]
    exact ho
  | unlock hk =>
    have hmu := h.exclusive.kex (by rw [hk]; rfl)
    refine h.frame he rfl rfl (fun i hm => by cases hm) (by rw [hmu]; rfl)
      (fun _ _ _ h => h) (fun _ _ => rfl) ?_ rfl
    rw [hk]
    rfl
  | initAlready hk hmu hs =>
    exact h.kexFrame he rfl rfl rfl rfl rfl (by rw [hk]; rfl) (afterInit_not_finishing _) rfl
  | exchange hk hx =>
    have hf : t.kex.finishing = false := by
      rw [hk]
      rfl
    cases hx with
    | wrote p x | writeFailed p e =>
      exact h.kexFrame he rfl rfl rfl rfl rfl hf rfl (appPackets_kex _ _ _)
    | _ => exact h.kexFrame he rfl rfl rfl rfl rfl hf rfl rfl
  | _ hk => exact h.kexFrame he rfl rfl rfl rfl rfl (by rw [hk]; rfl) rfl rfl

/-- The condition on a run: no write on the connection fails and nothing is stopped. -/
def Undisturbed (_ : HandshakeTransport) : Action → Prop
  | .writer _ r => r = none
  | .kex (.push _ r) => r = none
  | .kex (.wrote _ r) => r = none
  | .halt => False
  | _ => True

theorem InOrder.call (h : t.InOrder) (p : Packet) : (t.callWritePacket p).InOrder := by
  have he : (t.callWritePacket p).Exclusive := h.exclusive.step (a := .call p) rfl
  obtain ⟨pc, hpc, hw⟩ : ∃ pc, (pc = .lock ∨ ∃ e, pc = .done (some e)) ∧
      (t.callWritePacket p).writers = t.writers ++ [⟨p, pc⟩] := by
    refine ⟨_, ?_, rfl⟩
    split
    · exact .inr ⟨_, rfl⟩
    split
    · exact .inr ⟨_, rfl⟩
    · exact .inl rfl
  have hold (i : Nat) (hi : i < t.writers.length) :
      (t.callWritePacket p).writers[i]? = t.writers[i]? := by
    rw [hw, getElem?_append_left hi]
  have hnew {i : Nat} {w : Writer} (hwi : (t.callWritePacket p).writers[i]? = some w) :
      t.writers[i]? = some w ∨ w = ⟨p, pc⟩ := by
    rw [hw, getElem?_append] at hwi
    split at hwi
    · exact .inl hwi
    rw [getElem?_singleton] at hwi
    split at hwi
    · exact .inr (some.inj hwi).symm
    · cases hwi
  have hlt (i : Nat) (hm : t.mu = some (.writer i)) : i < t.writers.length := by
    obtain ⟨l, hl⟩ := h.last i hm
    exact h.bound i (by rw [hl]; simp)
  refine ⟨he, h.nodup, ?_, ?_, h.last, ?_, h.idle, ?_⟩
  · intro i hi
    have hb := h.bound i hi
    rw [hw, length_append]
    omega
  · intro i hi w hwi
    rw [hold i (h.bound i hi)] at hwi
    exact h.entered i hi w hwi
  · intro i q hwi
    rcases hnew hwi with hwi | hwi
    · exact h.pushing i q hwi
    · rcases hpc with hpc | ⟨e, hpc⟩ <;> rw [hpc] at hwi <;> cases hwi
  have ha : t.took.filterMap (returnedNil (t.callWritePacket p).writers) =
      t.took.filterMap (returnedNil t.writers) := by
    apply filterMap_congr
    intro i hi
    simp only [returnedNil, hold i (h.bound i hi)]
  have hl : leaving t.mu (t.callWritePacket p).writers = leaving t.mu t.writers := by
    unfold leaving heldAt
    split
    · rename_i i hm
      rw [hold i (hlt i hm)]
    · rfl
  have ho := h.order
  rw [← ha, ← hl] at ho
  exact ho

theorem InOrder.step (h : t.InOrder) (hstop : t.stop = false) (hg : Undisturbed t a)
    (hs : t.step a = some t') : t'.InOrder := by
  have he := h.exclusive.step hs
  cases step_cases hs with
  | call => exact h.call _
  | writer hs => exact h.writerStep hs
  | kex hs =>
    apply h.kexStep hs hstop
    rintro body r rfl
    exact hg
  | read hs | drain hs =>
    cases hs <;> exact h.frame he rfl rfl (fun _ _ => rfl) rfl (fun _ _ _ h => h) h.idle rfl rfl
  | requestKeyExchange | receive =>
    exact h.frame he rfl rfl (fun _ _ => rfl) rfl (fun _ _ _ h => h) h.idle rfl rfl
  | halt => exact hg.elim

/-- Whenever the mutex is free the packets passed on and those queued are the accepted ones, in the
order in which their calls took the mutex. -/
theorem passed_append_pendingPackets (c : HandshakeConfig)
    (hg : Along step Undisturbed (new c) as)
    (h : exec step (new c) as = some t) (hmu : t.mu = none) :
    t.passed ++ t.pendingPackets = t.accepted := by
  have hi : t.InOrder ∧ t.stop = false := by
    refine run_invariant (I := fun t => t.InOrder ∧ t.stop = false) ?_
      ⟨inOrder_new c, rfl⟩ hg h
    rintro s a s' ⟨ho, hs⟩ hga hstep
    obtain rfl | hstop := (step_static hstep).2
    · exact hga.elim
    · exact ⟨ho.step hs hga hstep, hstop.trans hs⟩
  have ho := hi.1.order
  have hf : t.kex.finishing = false := by
    apply KexPc.finishing_of_inside
    cases hk : t.kex.inside with
    | false => rfl
    | true =>
      have hc := hi.1.exclusive.kex hk
      cases hmu.symm.trans hc
  rw [queued_of_not_finishing hf, hmu] at ho
  simpa only [passed, accepted, leaving, heldAt, append_nil] using ho

/-- One packet is passed on, then a key exchange begins and a second packet is queued. -/
def queueingSchedule : List Action :=
  [.call ⟨94, [1]⟩, .writer 0 none, .writer 0 none, .writer 0 none, .writer 0 none,
    .kex .go, .kex .requestKex, .kex .go, .kex (.push [7] none),
    .call ⟨94, [2]⟩, .writer 1 none, .writer 1 none, .writer 1 none]

theorem passed_append_pendingPackets_queueing :
    ∃ t, exec step (new ⟨0, false⟩) queueingSchedule = some t ∧
      t.passed = [⟨94, [1]⟩] ∧ t.pendingPackets = [⟨94, [2]⟩] ∧
      t.passed ++ t.pendingPackets = t.accepted := by
  have hg : Along step Undisturbed (new ⟨0, false⟩) queueingSchedule :=
    along_of_forall (by simp [queueingSchedule, Undisturbed])
  exact ⟨_, rfl, rfl, rfl, passed_append_pendingPackets _ hg rfl rfl⟩

end HandshakeTransport

end XCryptoSsh
