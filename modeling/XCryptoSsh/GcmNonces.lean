import XCryptoSsh.BigInt
import XCryptoSsh.CipherTotal

namespace XCryptoSsh
open Go Crypto Call List Option Function
set_option autoImplicit true

namespace GcmCipher

/-- The indices that `incIV` runs through for a counter of `n` bytes. -/
def counterIndices : Nat → List Nat
  | 0 => []
  | n + 1 => (4 + n) :: counterIndices n

theorem setBytes_append_singleton (d : Bytes) (b : UInt8) :
    setBytes (d ++ [b]) = setBytes d * 256 + b.toNat := by
  rw [setBytes, foldl_append]
  rfl

theorem incFrom_append {p : Bytes} (hp : p.length = 4) (d s : Bytes) :
    ∃ d', incFrom (counterIndices d.length) (p ++ (d ++ s)) = some (p ++ (d' ++ s)) ∧
      d'.length = d.length ∧ setBytes d' = (setBytes d + 1) % 256 ^ d.length := by
  induction d using reverseRecOn generalizing s with
  | nil => exact ⟨[], rfl, rfl, by simp⟩
  | append_singleton d b ih =>
    have hi : (p ++ d).length = 4 + d.length := by rw [length_append, hp]
    have hv (x : UInt8) : p ++ (d ++ [x] ++ s) = (p ++ d) ++ x :: s := by simp
    have hget : (p ++ d ++ b :: s)[4 + d.length]? = some b := by
      rw [← hi, getElem?_append_right le_rfl, Nat.sub_self]
      rfl
    have hset : (p ++ d ++ b :: s).set (4 + d.length) (b + 1) = p ++ d ++ (b + 1) :: s := by
      rw [← hi, set_append_right _ _ le_rfl, Nat.sub_self]
      rfl
    have hlt := setBytes_lt d
    have hb := b.toNat_lt
    have hadd : (b + 1).toNat = (b.toNat + 1) % 256 := UInt8.toNat_add b 1
    have hzero : b + 1 = 0 ↔ (b + 1).toNat = 0 := UInt8.toNat_inj.symm
    rw [length_append, length_singleton, counterIndices, hv, incFrom, hget,
      bind_some, hset, pow_succ]
    by_cases hz : b + 1 = 0
    · rw [if_neg (not_not_intro hz), hz]
      obtain ⟨d', hd, hl, hs⟩ := ih (0 :: s)
      refine ⟨d' ++ [0], ?_, by rw [length_append, hl]; rfl, ?_⟩
      · rw [append_assoc, hd]
        simp
      rw [hzero] at hz
      rw [setBytes_append_singleton, setBytes_append_singleton, hs,
        show setBytes d * 256 + b.toNat + 1 = (setBytes d + 1) * 256 by omega,
        Nat.mul_mod_mul_right]
      exact Nat.add_zero _
    · rw [if_pos hz]
      refine ⟨d ++ [b + 1], by rw [hv], by rw [length_append]; rfl, ?_⟩
      rw [hzero] at hz
      rw [setBytes_append_singleton, setBytes_append_singleton, Nat.mod_eq_of_lt] <;> omega

def counter (v : Bytes) : Nat := setBytes (v.drop 4)

theorem counter_nextIV (h : v.length = 12) : counter (nextIV v) = (counter v + 1) % 2 ^ 64 := by
  have hp : (v.take 4).length = 4 := length_take_of_le (by omega)
  have hd : (v.drop 4).length = 8 := by rw [length_drop, h]
  obtain ⟨d, hi, -, hs⟩ := incFrom_append hp (v.drop 4) []
  rw [hd, append_nil, take_append_drop] at hi
  change incFrom [11, 10, 9, 8, 7, 6, 5, 4] v = _ at hi
  rw [counter, nextIV, hi, getD_some, drop_left' hp, append_nil, hs, hd]
  rfl

theorem length_iterate_nextIV (h : v.length = 12) (i : Nat) : (nextIV^[i] v).length = 12 := by
  induction i with
  | zero => exact h
  | succ i ih =>
    rw [iterate_succ_apply']
    exact length_nextIV ih

theorem counter_iterate (h : v.length = 12) (i : Nat) :
    counter (nextIV^[i] v) = (counter v + i) % 2 ^ 64 := by
  induction i with
  | zero =>
    have hlt := setBytes_lt (v.drop 4)
    rw [length_drop, h] at hlt
    exact (Nat.mod_eq_of_lt hlt).symm
  | succ i ih =>
    rw [iterate_succ_apply', counter_nextIV (length_iterate_nextIV h i), ih, ← Nat.add_assoc,
      Nat.mod_add_mod]

theorem iterate_nextIV_inj (h : v.length = 12) (hi : i < 2 ^ 64) (hj : j < 2 ^ 64)
    (he : nextIV^[i] v = nextIV^[j] v) : i = j := by
  have hc := congrArg counter he
  rw [counter_iterate h, counter_iterate h] at hc
  omega

/-- `writePacket` with its calls to the outside as parameters. -/
def writePacketWith {κ : Type} (write : Bytes → Call Err (GcmCipher × κ) Unit)
    (readRand : Nat → Call Err (GcmCipher × κ) Bytes)
    (sealBuf : GcmCipher → Bytes → Call Err (GcmCipher × κ) Bytes) (packet : Bytes) :
    Call Err (GcmCipher × κ) Unit := do
  let padding := paddingLength packet.length
  let length := u32 (packet.length + padding.toNat + 1)
  let pre := putUint32 length
  write pre
  resize length
  let c ← self
  let _ ← inRange (c.buf.index 0)
  let p ← inRange (c.buf.downFrom 1)
  let rest ← inRange (c.buf.downFrom (1 + packet.length))
  update fun c => { c with buf := c.buf.store 0 (padding :: packet.take p.len) }
  let random ← readRand rest.len
  update fun c => { c with buf := c.buf.store (1 + packet.length) random }
  let c ← self
  let sealed ← sealBuf c pre
  let empty ← inRange (c.buf.upTo 0)
  update fun c => { c with buf := empty.append sealed }
  let c ← self
  write c.buf.data
  incIV

theorem writePacket_eq (seqNum : Nat) (packet : Bytes) : writePacket seqNum packet =
    writePacketWith write readRand (fun c pre => inRange (c.sealBuf pre)) packet := rfl

/-- A `bufio.Writer`, which keeps its first error, and the padding source, with how their next
calls end; `nonces` are those `Seal` was given. -/
structure Wire where
  err : Option Err
  writes : List (Option Err)
  paddings : List (Except Err Bytes)
  nonces : List Bytes

namespace Wire

/-- `w.Write` and `w.Flush`; calls without an outcome of their own succeed. -/
def write (_ : Bytes) : Call Err (GcmCipher × Wire) Unit := fun s =>
  match s.2.err, s.2.writes with
  | some e, _ => (.error e, s)
  | none, some e :: os => (.error e, s.1, { s.2 with err := some e, writes := os })
  | none, os => (.ok (), s.1, { s.2 with writes := os.tail })

def readRand (n : Nat) : Call Err (GcmCipher × Wire) Bytes := fun s =>
  match s.2.paddings with
  | .error e :: ps => (.error e, s.1, { s.2 with paddings := ps })
  | .ok b :: ps => (.ok ((b ++ replicate n 0).take n), s.1, { s.2 with paddings := ps })
  | [] => (.ok (replicate n 0), s)

def sealBuf (c : GcmCipher) (pre : Bytes) : Call Err (GcmCipher × Wire) Bytes := fun s =>
  match c.sealBuf pre with
  | some b => (.ok b, s.1, { s.2 with nonces := s.2.nonces ++ [c.iv] })
  | none => (.panic, s)

end Wire

/-- `connectionState.writePacket` on a `gcmCipher`. -/
def sendPacket (packet : Bytes) : Call Err (GcmCipher × Wire) Unit := do
  writePacketWith Wire.write Wire.readRand Wire.sealBuf packet
  Wire.write []

def sendAll (ps : List Bytes) (s : GcmCipher × Wire) : GcmCipher × Wire :=
  ps.foldl (fun s p => (sendPacket p s).2) s

def sentIVs : List Bytes → GcmCipher × Wire → List Bytes
  | [], _ => []
  | p :: ps, s =>
    (if (sendPacket p s).1 = .ok () then [s.1.iv] else []) ++ sentIVs ps (sendPacket p s).2

/-- The IVs of the packets that a reader returned, up to its first error. -/
def acceptedIVs : Nat → GcmCipher × Reader Err → List Bytes
  | 0, _ => []
  | n + 1, s =>
    match readPacket 0 s with
    | (.ok _, s') => s.1.iv :: acceptedIVs n s'
    | _ => []

def SameNonce (s t : GcmCipher × Wire) : Prop :=
  t.1.iv = s.1.iv ∧ t.2.nonces = s.2.nonces ∧ t.2.err = s.2.err

/-- How a call can end: nothing was sealed; or the sealed packet was not written, and then nothing
is written after it; or the IV went on. -/
inductive Outcome (s : GcmCipher × Wire) : Result Err Unit × (GcmCipher × Wire) → Prop
  | unsealed (hr : r ≠ .ok ()) (hi : t.1.iv = s.1.iv) (hn : t.2.nonces = s.2.nonces)
      (he : s.2.err ≠ none → t.2.err ≠ none) : Outcome s (r, t)
  | torn (hr : r ≠ .ok ()) (hi : t.1.iv = s.1.iv) (hn : t.2.nonces = s.2.nonces ++ [s.1.iv])
      (hs : s.2.err = none) (he : t.2.err ≠ none) : Outcome s (r, t)
  | advanced (hi : t.1.iv = nextIV s.1.iv) (hn : t.2.nonces = s.2.nonces ++ [s.1.iv])
      (hs : s.2.err = none) (he : r ≠ .ok () → t.2.err ≠ none) : Outcome s (r, t)

theorem Outcome.of_same (h : SameNonce s s') (ho : Outcome s' r) : Outcome s r := by
  obtain ⟨hi, hn, he⟩ := h
  cases ho with
  | unsealed hr hi' hn' he' => exact .unsealed hr (hi'.trans hi) (hn'.trans hn) (he ▸ he')
  | torn hr hi' hn' hs he' =>
    exact .torn hr (hi'.trans hi) (by rw [hn', hn, hi]) (he ▸ hs) he'
  | advanced hi' hn' hs he' => exact .advanced (hi ▸ hi') (by rw [hn', hn, hi]) (he ▸ hs) he'

def Open (s : GcmCipher × Wire) : Prop := s.2.err = none ∧ s.1.iv.length = 12

theorem Outcome.bind {x : Call Err (GcmCipher × Wire) β} {f : β → Call Err (GcmCipher × Wire) Unit}
    (hg : Open s) (hx : SameNonce s (x s).2) (hf : ∀ a s', Open s' → Outcome s' (f a s')) :
    Outcome s ((x >>= f) s) := by
  change Outcome s (Call.bind x f s)
  simp only [Call.bind]
  cases h : x s with
  | mk r s' =>
    rw [h] at hx
    obtain ⟨hi, hn, he⟩ := hx
    cases r with
    | ok a => exact (hf a s' ⟨he.trans hg.1, hi ▸ hg.2⟩).of_same ⟨hi, hn, he⟩
    | error e | panic => exact .unsealed (by simp) hi hn (he ▸ id)

theorem bind_of_panic {x : Call ε σ β} {f : β → Call ε σ α} (h : x s = (.panic, s')) :
    (x >>= f) s = (.panic, s') := by
  change Call.bind x f s = _
  simp only [Call.bind, h]

theorem sameNonce_resize (n : Nat) (s : GcmCipher × Wire) : SameNonce s (resize n s).2 := by
  obtain ⟨c, k⟩ := s
  have hw : (resize n).wp (fun _ t => SameNonce (c, k) t) (SameNonce (c, k)) (c, k) :=
    wp_resize_of fun b _ _ => ⟨rfl, rfl, rfl⟩
  exact (wp_invariant hw).2

theorem sameNonce_inRange {o : Option α} (s : GcmCipher × Wire) :
    SameNonce s ((inRange o : Call Err _ α) s).2 := by
  cases o <;> exact ⟨rfl, rfl, rfl⟩

theorem sameNonce_readRand (n : Nat) (s : GcmCipher × Wire) :
    SameNonce s (Wire.readRand n s).2 := by
  unfold Wire.readRand
  split <;> exact ⟨rfl, rfl, rfl⟩

theorem Wire.write_cases (b : Bytes) (s : GcmCipher × Wire) :
    (∃ e t, Wire.write b s = (.error e, t) ∧ t.1 = s.1 ∧ t.2.nonces = s.2.nonces ∧
      t.2.err ≠ none) ∨
    ∃ t, Wire.write b s = (.ok (), t) ∧ t.1 = s.1 ∧ t.2.nonces = s.2.nonces ∧ s.2.err = none ∧
      t.2.err = none := by
  unfold Wire.write
  split
  · rename_i e h
    exact .inl ⟨e, s, rfl, rfl, rfl, by rw [h]; exact some_ne_none e⟩
  · exact .inl ⟨_, _, rfl, rfl, rfl, some_ne_none _⟩
  · rename_i h _
    exact .inr ⟨_, rfl, rfl, rfl, h, h⟩

theorem incIV_eq {k : Wire} (h : c.iv.length = 12) :
    incIV (c, k) = (.ok (), { c with iv := nextIV c.iv }, k) := by
  have hw : incIV.wp (fun _ t => t = ({ c with iv := nextIV c.iv }, k)) (fun _ => False) (c, k) :=
    (wp_incIV h).mpr rfl
  obtain ⟨_, t, hx, rfl⟩ := wp_returns_iff.mp hw
  exact hx

theorem outcome_writePacketWith (packet : Bytes) (s : GcmCipher × Wire) (hl : s.1.iv.length = 12) :
    Outcome s (writePacketWith Wire.write Wire.readRand Wire.sealBuf packet s) := by
  rw [writePacketWith]
  rcases Wire.write_cases _ s with ⟨e, t, hw, ht, hn, he⟩ | ⟨t, hw, ht, hn, hs, he⟩
  · rw [bind_of_error hw]
    exact .unsealed nofun (by rw [ht]) hn fun _ => he
  rw [bind_of_ok hw]
  refine .of_same ⟨by rw [ht], hn, he.trans hs.symm⟩ ?_
  have hg : Open t := ⟨he, ht ▸ hl⟩
  refine .bind hg (sameNonce_resize _ _) fun _ s hg => ?_
  rw [bind_of_ok (x := self) rfl]
  refine .bind hg (sameNonce_inRange _) fun _ s hg => ?_
  refine .bind hg (sameNonce_inRange _) fun _ s hg => ?_
  refine .bind hg (sameNonce_inRange _) fun _ s hg => ?_
  refine .bind hg ⟨rfl, rfl, rfl⟩ fun _ s hg => ?_
  refine .bind hg (sameNonce_readRand _ _) fun _ s hg => ?_
  refine .bind hg ⟨rfl, rfl, rfl⟩ fun _ s hg => ?_
  rw [bind_of_ok (x := self) rfl]
  generalize putUint32 _ = pre
  cases hb : s.1.sealBuf pre with
  | none =>
    have hx : Wire.sealBuf s.1 pre s = (.panic, s) := by simp only [Wire.sealBuf, hb]
    rw [bind_of_panic hx]
    exact .unsealed nofun rfl rfl id
  | some b =>
    have hx : Wire.sealBuf s.1 pre s =
        (.ok b, s.1, { s.2 with nonces := s.2.nonces ++ [s.1.iv] }) := by
      simp only [Wire.sealBuf, hb]
    rw [bind_of_ok hx, bind_of_ok (inRange_eq_ok.mpr ⟨Slice.upTo_of_le (Nat.zero_le _), rfl⟩),
      bind_of_ok (x := update _) rfl, bind_of_ok (x := self) rfl]
    rcases Wire.write_cases _ _ with ⟨e, t, hw, ht, hn, he⟩ | ⟨⟨c, k⟩, hw, ht, hn, -, he⟩
    · rw [bind_of_error hw]
      exact .torn nofun (by rw [ht]) hn hg.1 he
    cases ht
    rw [bind_of_ok hw, incIV_eq (by exact hg.2)]
    exact .advanced rfl hn hg.1 fun h => absurd rfl h

theorem outcome_sendPacket (packet : Bytes) (s : GcmCipher × Wire) (hl : s.1.iv.length = 12) :
    Outcome s (sendPacket packet s) := by
  have h := outcome_writePacketWith packet s hl
  rw [sendPacket]
  cases hx : writePacketWith Wire.write Wire.readRand Wire.sealBuf packet s with
  | mk r t =>
    rw [hx] at h
    cases r with
    | error e =>
      rw [bind_of_error hx]
      exact h
    | panic =>
      rw [bind_of_panic hx]
      exact h
    | ok u =>
      rw [bind_of_ok hx]
      cases h with
      | unsealed hr | torn hr => exact absurd rfl hr
      | advanced hi hn hs =>
        rcases Wire.write_cases [] t with ⟨e, t', hw, ht, hn', he⟩ | ⟨t', hw, ht, hn', -, -⟩
        · rw [hw]
          exact .advanced (ht ▸ hi) (hn'.trans hn) hs fun _ => he
        · rw [hw]
          exact .advanced (ht ▸ hi) (hn'.trans hn) hs fun h => absurd rfl h

/-- After `n` calls the nonces are the first values of the counter, at most one of them for a
packet that was not written. -/
def Numbered (v : Bytes) (n : Nat) (s : GcmCipher × Wire) : Prop :=
  ∃ j, s.1.iv = nextIV^[j] v ∧ (j ≤ n ∧ s.2.nonces = (range j).map (nextIV^[·] v) ∨
    j + 1 ≤ n ∧ s.2.nonces = (range (j + 1)).map (nextIV^[·] v) ∧ s.2.err ≠ none)

theorem Numbered.step (h : Numbered v n s) (ho : Outcome s (r, t)) : Numbered v (n + 1) t := by
  obtain ⟨j, hj, h⟩ := h
  have hsucc (hn : s.2.nonces = (range j).map (nextIV^[·] v)) :
      s.2.nonces ++ [s.1.iv] = (range (j + 1)).map (nextIV^[·] v) := by
    rw [range_succ, map_append, hn, hj]
    rfl
  cases ho with
  | unsealed hr hi hn he =>
    rcases h with ⟨hle, h⟩ | ⟨hle, h, herr⟩
    · exact ⟨j, hi.trans hj, .inl ⟨by omega, hn.trans h⟩⟩
    · exact ⟨j, hi.trans hj, .inr ⟨by omega, hn.trans h, he herr⟩⟩
  | torn hr hi hn hs he =>
    rcases h with ⟨hle, h⟩ | ⟨-, -, herr⟩
    · exact ⟨j, hi.trans hj, .inr ⟨by omega, hn.trans (hsucc h), he⟩⟩
    · exact absurd hs herr
  | advanced hi hn hs =>
    rcases h with ⟨hle, h⟩ | ⟨-, -, herr⟩
    · refine ⟨j + 1, ?_, .inl ⟨by omega, hn.trans (hsucc h)⟩⟩
      rw [hi, hj, iterate_succ_apply']
    · exact absurd hs herr

theorem Numbered.sendAll (hv : v.length = 12) (h : Numbered v n s) :
    Numbered v (n + ps.length) (sendAll ps s) := by
  induction ps generalizing n s with
  | nil => exact h
  | cons p ps ih =>
    obtain ⟨j, hj, -⟩ := id h
    have ho := outcome_sendPacket p s (hj ▸ length_iterate_nextIV hv j)
    rw [length_cons, Nat.add_comm ps.length, ← Nat.add_assoc]
    exact ih (h.step (r := (sendPacket p s).1) ho)

theorem sentIVs_of_err (hl : s.1.iv.length = 12) (h : s.2.err ≠ none) : sentIVs ps s = [] := by
  induction ps generalizing s with
  | nil => rfl
  | cons p ps ih =>
    have ho := outcome_sendPacket p s hl
    rw [sentIVs]
    generalize sendPacket p s = x at ho ⊢
    cases ho with
    | unsealed hr hi hn he =>
      rw [if_neg hr, nil_append]
      exact ih (hi ▸ hl) (he h)
    | torn hr hi hn hs | advanced hi hn hs => exact absurd hs h

theorem getElem?_sentIVs (hl : s.1.iv.length = 12) (h : (sentIVs ps s)[i]? = some v) :
    v = nextIV^[i] s.1.iv := by
  induction ps generalizing s i with
  | nil => cases h
  | cons p ps ih =>
    have ho := outcome_sendPacket p s hl
    rw [sentIVs] at h
    generalize sendPacket p s = x at ho h
    obtain ⟨r, t⟩ := x
    by_cases hr : r = .ok ()
    · rw [if_pos hr] at h
      cases ho with
      | unsealed hr' | torn hr' => exact absurd hr hr'
      | advanced hi =>
        cases i with
        | zero => exact (some.inj h).symm
        | succ i =>
          rw [iterate_succ_apply, ← hi]
          exact ih (hi ▸ length_nextIV hl) h
    · rw [if_neg hr, nil_append] at h
      cases ho with
      | unsealed _ hi => exact hi ▸ ih (hi ▸ hl) h
      | torn _ hi _ _ he =>
        rw [sentIVs_of_err (hi ▸ hl) he] at h
        cases h
      | advanced hi _ _ he =>
        rw [sentIVs_of_err (hi ▸ length_nextIV hl) (he hr)] at h
        cases h

theorem unpad_state (h : unpad n plain s = (.ok p, t)) : t = s := by
  obtain ⟨_, -, h⟩ := inRange_bind_eq_ok.mp h
  obtain ⟨_, _, h₂, h⟩ := bind_eq_ok.mp h
  obtain ⟨-, rfl⟩ := failIf_eq_ok.mp h₂
  obtain ⟨_, _, h₃, h⟩ := bind_eq_ok.mp h
  obtain ⟨-, rfl⟩ := failIf_eq_ok.mp h₃
  obtain ⟨_, -, h⟩ := inRange_bind_eq_ok.mp h
  exact (pure_eq_ok.mp h).2.symm

theorem readPacket_iv (hc : c.Sized) (h : readPacket n (c, r) = (.ok p, t)) :
    t.1.iv = nextIV c.iv ∧ t.1.Sized := by
  obtain ⟨_, t', h₁, h₂⟩ := bind_eq_ok.mp h
  rw [unpad_state h₂]
  refine of_wp (Q := fun _ t => t.1.iv = nextIV c.iv ∧ t.1.Sized) (E := fun _ => True) h₁ ?_
  exact wp_readPlain_of hc (fun _ _ _ => trivial) fun _ _ _ _ _ _ _ hb =>
    ⟨rfl, length_nextIV hc.iv, hc.nonceSize, hc.tagSize, hb⟩

theorem getElem?_acceptedIVs {s : GcmCipher × Reader Err} (hc : s.1.Sized)
    (h : (acceptedIVs n s)[i]? = some v) : v = nextIV^[i] s.1.iv := by
  induction n generalizing s i with
  | zero => cases h
  | succ n ih =>
    simp only [acceptedIVs] at h
    split at h
    · rename_i hx
      obtain ⟨hi, hs⟩ := readPacket_iv (c := s.1) (r := s.2) hc hx
      cases i with
      | zero => exact (some.inj h).symm
      | succ i =>
        rw [iterate_succ_apply, ← hi]
        exact ih hs h
    · cases h

/-- No nonce is used twice, whatever fails; and the reader opens its packets with the IVs under
which the writer's were sent. -/
theorem nonces_nodup {k : Wire} (hl : c.iv.length = 12) (hk : k.nonces = [])
    (hn : ps.length < 2 ^ 64) :
    (sendAll ps (c, k)).2.nonces.Nodup ∧
      ∀ (r : GcmCipher) (input : Reader Err) (n i : Nat) v v', r.Sized → r.iv = c.iv →
        (sentIVs ps (c, k))[i]? = some v → (acceptedIVs n (r, input))[i]? = some v' → v' = v := by
  constructor
  · have h : Numbered c.iv 0 (c, k) := ⟨0, rfl, .inl ⟨le_rfl, hk⟩⟩
    obtain ⟨j, -, hj⟩ := h.sendAll hl
    have hnodup (m : Nat) (hm : m ≤ 0 + ps.length) :
        ((range m).map (nextIV^[·] c.iv)).Nodup := by
      refine List.Nodup.map_on (fun i hi i' hi' he => ?_) nodup_range
      rw [mem_range] at hi hi'
      exact iterate_nextIV_inj hl (by omega) (by omega) he
    rcases hj with ⟨hle, hj⟩ | ⟨hle, hj, -⟩
    · exact hj ▸ hnodup j hle
    · exact hj ▸ hnodup (j + 1) hle
  · intro r input n i v v' hr hi hv hv'
    rw [getElem?_sentIVs hl hv, getElem?_acceptedIVs hr hv', hi]

/-- The padding of a second packet fails, and a third is sealed and not written. -/
def tornWire : GcmCipher × Wire :=
  (⟨plainAead, replicate 12 0, Slice.make 0⟩,
    ⟨none, [none, none, none, none, none, some .eof], [.ok [], .error .eof], []⟩)

theorem nonces_nodup_tornWire : (sendAll [[1], [2], [3], [4]] tornWire).2.nonces.length = 2 ∧
    (sendAll [[1], [2], [3], [4]] tornWire).2.nonces.Nodup := by
  have hl : tornWire.1.iv.length = 12 := rfl
  exact ⟨by decide +kernel, (nonces_nodup (k := tornWire.2) hl rfl (by decide)).1⟩

end GcmCipher

end XCryptoSsh
