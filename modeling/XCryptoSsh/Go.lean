import Mathlib.Data.List.Basic
import Mathlib.Data.Nat.Bitwise

namespace Go
open List
set_option autoImplicit true

abbrev Bytes := List UInt8

def u32 (n : Nat) : Nat := n % 2 ^ 32

/-- `a - b` on values of type `uint32`. -/
def subU32 (a b : Nat) : Nat := (a + 2 ^ 32 - b) % 2 ^ 32

theorem u32_of_lt (h : n < 2 ^ 32) : u32 n = n := Nat.mod_eq_of_lt h

theorem subU32_of_le (h : b ≤ a) (ha : a < 2 ^ 32) : subU32 a b = a - b := by
  simp only [subU32]
  omega

def putUint32 (n : Nat) : Bytes :=
  [UInt8.ofNat (n / 2 ^ 24), UInt8.ofNat (n / 2 ^ 16), UInt8.ofNat (n / 2 ^ 8), UInt8.ofNat n]

def bigEndianUint32 (b : Bytes) : Nat := b.foldl (fun n x => n * 256 + x.toNat) 0

@[simp] theorem length_putUint32 (n : Nat) : (putUint32 n).length = 4 := rfl

theorem bigEndianUint32_putUint32_u32 (n : Nat) : bigEndianUint32 (putUint32 n) = u32 n := by
  simp only [putUint32, bigEndianUint32, u32, foldl_cons, foldl_nil,
    UInt8.toNat_ofNat']
  omega

theorem bigEndianUint32_putUint32 (h : n < 2 ^ 32) : bigEndianUint32 (putUint32 n) = n := by
  rw [bigEndianUint32_putUint32_u32, u32_of_lt h]

theorem bigEndianUint32_lt {b : Bytes} (h : b.length = 4) : bigEndianUint32 b < 2 ^ 32 := by
  obtain ⟨w, x, y, z, rfl⟩ : ∃ w x y z, b = [w, x, y, z] := by
    match b, h with
    | [w, x, y, z], _ => exact ⟨w, x, y, z, rfl⟩
  have hw := w.toNat_lt
  have hx := x.toNat_lt
  have hy := y.toNat_lt
  have hz := z.toNat_lt
  simp only [bigEndianUint32, foldl_cons, foldl_nil]
  omega

def putUint64 (n : Nat) : Bytes := putUint32 (n / 2 ^ 32) ++ putUint32 n

def bigEndianUint64 (b : Bytes) : Nat :=
  bigEndianUint32 (b.take 4) * 2 ^ 32 + bigEndianUint32 (b.drop 4)

@[simp] theorem length_putUint64 (n : Nat) : (putUint64 n).length = 8 := rfl

theorem bigEndianUint64_putUint64 (h : n < 2 ^ 64) : bigEndianUint64 (putUint64 n) = n := by
  have hhigh : n / 2 ^ 32 < 2 ^ 32 := by omega
  simp only [bigEndianUint64, putUint64, take_left' (length_putUint32 _),
    drop_left' (length_putUint32 _), bigEndianUint32_putUint32 hhigh,
    bigEndianUint32_putUint32_u32, u32]
  omega

theorem except_bind_eq_ok {x : Except ε α} {f : α → Except ε β} :
    (x >>= f) = .ok b ↔ ∃ a, x = .ok a ∧ f a = .ok b := by
  cases x with
  | error e | ok a => simp [bind, Except.bind]

inductive Result (ε α : Type) where
  | ok (a : α)
  | error (e : ε)
  | panic
  deriving DecidableEq, Repr

theorem Result.ne_panic_iff {r : Result ε α} :
    r ≠ .panic ↔ (∃ a, r = .ok a) ∨ ∃ e, r = .error e := by
  cases r <;> simp

instance : Monad (Result ε) where
  pure := .ok
  bind x f := match x with
    | .ok a => f a
    | .error e => .error e
    | .panic => .panic

def Result.ofExcept : Except ε α → Result ε α
  | .ok a => .ok a
  | .error e => .error e

/-- An expression that panics when it has no value. -/
def Result.ofOption : Option α → Result ε α
  | some a => .ok a
  | none => .panic

theorem Result.bind_eq_ok {x : Result ε α} {f : α → Result ε β} :
    (x >>= f) = .ok b ↔ ∃ a, x = .ok a ∧ f a = .ok b := by
  cases x with
  | ok a | error e | panic => simp [bind]

theorem Result.ofExcept_eq_ok {x : Except ε α} : Result.ofExcept x = .ok a ↔ x = .ok a := by
  cases x with
  | ok a | error e => simp [ofExcept]

theorem Result.bind_congr {x : Result ε α} {f g : α → Result ε β} (h : ∀ a, f a = g a) :
    (x >>= f) = (x >>= g) := by
  rw [funext h]

theorem Result.bind_assoc (x : Result ε α) (f : α → Result ε β) (g : β → Result ε γ) :
    (x >>= f) >>= g = x >>= fun a => f a >>= g := by
  cases x <;> rfl

theorem Result.ofExcept_bind (x : Except ε α) (f : α → Except ε β) :
    Result.ofExcept (x >>= f) = Result.ofExcept x >>= fun a => Result.ofExcept (f a) := by
  cases x <;> rfl

theorem Result.ofOption_eq_ok {o : Option α} :
    (Result.ofOption o : Result ε α) = .ok a ↔ o = some a := by
  cases o with
  | some a | none => simp [ofOption]

/-- `b[i]`. -/
def byteAt (b : Bytes) (i : Nat) : Result ε UInt8 := .ofOption b[i]?

/-- `b[i:]`. -/
def bytesFrom (b : Bytes) (i : Nat) : Result ε Bytes :=
  if i ≤ b.length then .ok (b.drop i) else .panic

/-- `b[:j]`, also refused between the length and the capacity. -/
def bytesTo (b : Bytes) (j : Nat) : Result ε Bytes :=
  if j ≤ b.length then .ok (b.take j) else .panic

def uint32Of (b : Bytes) : Result ε Nat :=
  if 4 ≤ b.length then .ok (bigEndianUint32 (b.take 4)) else .panic

def uint64Of (b : Bytes) : Result ε Nat :=
  if 8 ≤ b.length then .ok (bigEndianUint64 (b.take 8)) else .panic

/-- `b[i] = x`. -/
def setByte (b : Bytes) (i : Nat) (x : UInt8) : Result ε Bytes :=
  if i < b.length then .ok (b.set i x) else .panic

/-- `binary.BigEndian.PutUint32(b[i:], n)`. -/
def putUint32At (b : Bytes) (i n : Nat) : Result ε Bytes :=
  if i + 4 ≤ b.length then .ok (b.take i ++ putUint32 n ++ b.drop (i + 4)) else .panic

/-- `copy(b[i:], src)`. -/
def copyAt (b : Bytes) (i : Nat) (src : Bytes) : Result ε Bytes :=
  if i ≤ b.length then
    .ok (b.take i ++ src.take (b.length - i) ++ b.drop (i + src.length))
  else .panic

@[simp] theorem byteAt_cons_zero (x : UInt8) (b : Bytes) :
    (byteAt (x :: b) 0 : Result ε UInt8) = .ok x := rfl

theorem bytesFrom_of_le (h : i ≤ b.length) : (bytesFrom b i : Result ε Bytes) = .ok (b.drop i) :=
  if_pos h

theorem bytesTo_of_le (h : j ≤ b.length) : (bytesTo b j : Result ε Bytes) = .ok (b.take j) :=
  if_pos h

theorem uint32Of_of_le (h : 4 ≤ b.length) :
    (uint32Of b : Result ε Nat) = .ok (bigEndianUint32 (b.take 4)) := if_pos h

theorem uint64Of_of_le (h : 8 ≤ b.length) :
    (uint64Of b : Result ε Nat) = .ok (bigEndianUint64 (b.take 8)) := if_pos h

@[simp] theorem setByte_cons_zero (x y : UInt8) (b : Bytes) :
    (setByte (x :: b) 0 y : Result ε Bytes) = .ok (y :: b) := if_pos (Nat.succ_pos _)

theorem putUint32At_append (hx : x.length = i) (hy : y.length = 4) :
    (putUint32At (x ++ (y ++ z)) i n : Result ε Bytes) = .ok (x ++ (putUint32 n ++ z)) := by
  rw [putUint32At, if_pos (by simp [hx, hy]), take_left' hx, ← append_assoc x y,
    drop_left' (by simp [hx, hy]), append_assoc]

theorem copyAt_append (hx : x.length = i) (hy : y.length = src.length) :
    (copyAt (x ++ y) i src : Result ε Bytes) = .ok (x ++ src) := by
  have hdrop : (x ++ y).drop (i + src.length) = [] := by
    apply drop_eq_nil_of_le
    simp [hx, hy]
  rw [copyAt, if_pos (by simp [hx]), take_left' hx, hdrop, append_nil,
    take_of_length_le (by simp [hx, hy])]

@[simp] theorem Result.ok_bind (a : α) (f : α → Result ε β) :
    ((.ok a : Result ε α) >>= f) = f a := rfl

/-- The call returned a value that passes the test. -/
def Result.test (f : α → Bool) : Result ε α → Bool
  | .ok a => f a
  | _ => false

/-- A call that works on a state; what it changed stays changed when it fails. -/
def Call (ε σ α : Type) : Type := σ → Result ε α × σ

namespace Call

variable {ε σ α β : Type}

protected def pure (a : α) : Call ε σ α := fun s => (.ok a, s)

protected def bind (x : Call ε σ α) (f : α → Call ε σ β) : Call ε σ β := fun s =>
  match x s with
  | (.ok a, s') => f a s'
  | (.error e, s') => (.error e, s')
  | (.panic, s') => (.panic, s')

instance : Monad (Call ε σ) where
  pure := Call.pure
  bind := Call.bind

def fail (e : ε) : Call ε σ α := fun s => (.error e, s)

/-- `if c { return nil, e }`. -/
def failIf (c : Prop) [Decidable c] (e : ε) : Call ε σ Unit := if c then fail e else pure ()

/-- An index or slice expression, or a library call that panics on bad arguments. -/
def inRange (o : Option α) : Call ε σ α := fun s =>
  match o with
  | some a => (.ok a, s)
  | none => (.panic, s)

/-- The value a library call returned, or its error. -/
def orFail (o : Option α) (e : ε) : Call ε σ α := fun s =>
  match o with
  | some a => (.ok a, s)
  | none => (.error e, s)

def ofExcept (x : Except ε α) : Call ε σ α := fun s =>
  match x with
  | .ok a => (.ok a, s)
  | .error e => (.error e, s)

def ofResult (r : Result ε α) : Call ε σ α := fun s => (r, s)

variable {C ρ : Type}

def self : Call ε (C × ρ) C := fun s => (.ok s.1, s)

def update (f : C → C) : Call ε (C × ρ) Unit := fun s => (.ok (), f s.1, s.2)

/-- The call does not panic; `Q` holds when it returns and `E` when it fails. -/
def wp (x : Call ε σ α) (Q : α → σ → Prop) (E : σ → Prop) (s : σ) : Prop :=
  match x s with
  | (.ok a, s') => Q a s'
  | (.error _, s') => E s'
  | (.panic, _) => False

variable {Q : α → σ → Prop} {E : σ → Prop} {s : σ}

@[simp] theorem wp_pure : wp (pure a : Call ε σ α) Q E s ↔ Q a s := Iff.rfl

@[simp] theorem wp_bind {x : Call ε σ β} {f : β → Call ε σ α} :
    wp (x >>= f) Q E s ↔ wp x (fun b => wp (f b) Q E) E s := by
  change wp (Call.bind x f) Q E s ↔ _
  simp only [wp, Call.bind]
  cases hx : x s with
  | mk r s' => cases r <;> rfl

@[simp] theorem wp_fail : wp (fail e : Call ε σ α) Q E s ↔ E s := Iff.rfl

@[simp] theorem wp_failIf {c : Prop} [Decidable c] {Q : Unit → σ → Prop} :
    wp (failIf c e : Call ε σ Unit) Q E s ↔ (c → E s) ∧ (¬c → Q () s) := by
  by_cases h : c
  · simp [failIf, h]
  · simp [failIf, h]

@[simp] theorem wp_inRange {o : Option α} :
    wp (inRange o : Call ε σ α) Q E s ↔ ∃ a, o = some a ∧ Q a s := by
  cases o with
  | none | some a => simp [wp, inRange]

@[simp] theorem wp_orFail {o : Option α} :
    wp (orFail o e : Call ε σ α) Q E s ↔ (o = none → E s) ∧ ∀ a, o = some a → Q a s := by
  cases o with
  | none | some a => simp [wp, orFail]

@[simp] theorem wp_self {Q : C → C × ρ → Prop} {E : C × ρ → Prop} {s : C × ρ} :
    wp (self : Call ε (C × ρ) C) Q E s ↔ Q s.1 s := Iff.rfl

@[simp] theorem wp_update {f : C → C} {Q : Unit → C × ρ → Prop} {E : C × ρ → Prop}
    {s : C × ρ} : wp (update f : Call ε (C × ρ) Unit) Q E s ↔ Q () (f s.1, s.2) := Iff.rfl

@[simp] theorem wp_ite {c : Prop} [Decidable c] {x y : Call ε σ α} :
    wp (if c then x else y) Q E s ↔ (c → wp x Q E s) ∧ (¬c → wp y Q E s) := by
  by_cases h : c
  · simp [h]
  · simp [h]

theorem wp_mono {x : Call ε σ α} {Q' : α → σ → Prop} {E' : σ → Prop}
    (h : wp x Q E s) (hQ : ∀ a s', Q a s' → Q' a s') (hE : ∀ s', E s' → E' s') :
    wp x Q' E' s := by
  simp only [wp] at h ⊢
  cases hx : x s with
  | mk r s' =>
    rw [hx] at h
    cases r with
    | ok a => exact hQ a s' h
    | error e => exact hE s' h
    | panic => exact h

theorem wp_invariant {x : Call ε σ α} {I : σ → Prop} (h : wp x (fun _ => I) I s) :
    (x s).1 ≠ .panic ∧ I (x s).2 := by
  simp only [wp] at h
  cases hx : x s with
  | mk r s' =>
    rw [hx] at h
    cases r with
    | ok a | error e => exact ⟨nofun, h⟩
    | panic => exact h.elim

theorem wp_true_iff {x : Call ε σ α} :
    wp x (fun _ _ => True) (fun _ => True) s ↔ (x s).1 ≠ .panic := by
  simp only [wp]
  cases hx : x s with
  | mk r s' => cases r <;> simp

theorem not_wp_of {x : Call ε σ α} (h : wp x (fun a t => ¬ Q a t) (fun _ => False) s) :
    ¬ wp x Q E s := by
  simp only [wp] at h ⊢
  cases hx : x s with
  | mk r s' =>
    rw [hx] at h
    cases r with
    | ok a => exact h
    | error e | panic => exact h.elim

theorem wp_returns_iff {x : Call ε σ α} :
    wp x Q (fun _ => False) s ↔ ∃ a s', x s = (.ok a, s') ∧ Q a s' := by
  simp only [wp]
  cases hx : x s with
  | mk r s' => cases r <;> simp [and_assoc]

theorem of_wp {x : Call ε σ α} (hx : x s = (.ok a, t)) (h : wp x Q E s) : Q a t := by
  rw [wp, hx] at h
  exact h

/-- A method call on a value stored in an interface: `wrap` makes the interface value. -/
def within (wrap : C → D) (x : Call ε (C × ρ) α) (c : C) (k : ρ) : Result ε α × D × ρ :=
  let r := x (c, k)
  (r.1, wrap r.2.1, r.2.2)

theorem within_eq {wrap : C → D} {x : Call ε (C × ρ) α} (h : x (c, k) = (a, c', k')) :
    x.within wrap c k = (a, wrap c', k') := by
  simp only [within, h]

theorem of_within {wrap : C → D} {x : Call ε (C × ρ) α} (h : x.within wrap c k = (a, d, k')) :
    ∃ c', x (c, k) = (a, c', k') ∧ d = wrap c' := by
  cases h
  exact ⟨_, rfl, rfl⟩

theorem wp_within {D : Type} {wrap : C → D} {x : Call ε (C × ρ) α} {y : Call ε (D × ρ) α}
    {Q : α → D × ρ → Prop} {E : D × ρ → Prop} (h : y (wrap c, k) = x.within wrap c k) :
    y.wp Q E (wrap c, k) ↔
      x.wp (fun a t => Q a (wrap t.1, t.2)) (fun t => E (wrap t.1, t.2)) (c, k) := by
  simp only [wp, h, within]
  cases hx : x (c, k) with
  | mk r t => cases r <;> rfl

theorem bind_eq_ok {x : Call ε σ β} {f : β → Call ε σ α} :
    (x >>= f) s = (.ok a, t) ↔ ∃ b s', x s = (.ok b, s') ∧ f b s' = (.ok a, t) := by
  change Call.bind x f s = _ ↔ _
  simp only [Call.bind]
  cases hx : x s with
  | mk r s' => cases r <;> simp

theorem bind_eq_panic {x : Call ε σ β} {f : β → Call ε σ α} :
    ((x >>= f) s).1 = .panic ↔
      (x s).1 = .panic ∨ ∃ b s', x s = (.ok b, s') ∧ (f b s').1 = .panic := by
  change (Call.bind x f s).1 = _ ↔ _
  simp only [Call.bind]
  cases hx : x s with
  | mk r s' => cases r <;> simp

theorem bind_of_ok {x : Call ε σ β} {f : β → Call ε σ α} (h : x s = (.ok b, s')) :
    (x >>= f) s = f b s' := by
  change Call.bind x f s = _
  simp only [Call.bind, h]

theorem bind_congr_at {x : Call ε σ β} {f g : β → Call ε σ α}
    (h : ∀ b s', x s = (.ok b, s') → f b s' = g b s') : (x >>= f) s = (x >>= g) s := by
  change Call.bind x f s = Call.bind x g s
  simp only [Call.bind]
  cases hx : x s with
  | mk r s' =>
    cases r with
    | ok b => exact h b s' hx
    | error e => rfl
    | panic => rfl

theorem bind_of_error {x : Call ε σ β} {f : β → Call ε σ α} (h : x s = (.error e, s')) :
    (x >>= f) s = (.error e, s') := by
  change Call.bind x f s = _
  simp only [Call.bind, h]

theorem failIf_bind_of {c : Prop} [Decidable c] {f : Unit → Call ε σ α} (h : c) :
    (failIf c e >>= f) s = (.error e, s) := by
  rw [failIf, if_pos h]
  rfl

theorem failIf_bind_of_not {c : Prop} [Decidable c] {f : Unit → Call ε σ α} (h : ¬c) :
    (failIf c e >>= f) s = f () s := by
  rw [failIf, if_neg h]
  rfl

theorem exists_of_test {x : Call ε σ α} (h : (x s).1.test f = true) :
    ∃ a t, x s = (.ok a, t) ∧ f a = true := by
  cases hx : x s with
  | mk r t =>
    rw [hx] at h
    cases r with
    | ok a => exact ⟨a, t, rfl, h⟩
    | error e => cases h
    | panic => cases h

theorem pure_eq_ok : (pure a : Call ε σ α) s = (.ok b, t) ↔ a = b ∧ s = t := by
  change (Result.ok a, s) = _ ↔ _
  simp

theorem inRange_eq_ok {o : Option α} :
    (inRange o : Call ε σ α) s = (.ok a, t) ↔ o = some a ∧ s = t := by
  cases o with
  | none | some a => simp [inRange]

theorem orFail_eq_ok {o : Option α} :
    (orFail o e : Call ε σ α) s = (.ok a, t) ↔ o = some a ∧ s = t := by
  cases o with
  | none | some a => simp [orFail]

theorem ofExcept_eq_ok {x : Except ε α} :
    (ofExcept x : Call ε σ α) s = (.ok a, t) ↔ x = .ok a ∧ s = t := by
  cases x with
  | error e | ok a => simp [ofExcept]

theorem ofResult_eq_ok {r : Result ε α} :
    (ofResult r : Call ε σ α) s = (.ok a, t) ↔ r = .ok a ∧ s = t := Prod.mk_inj

theorem failIf_eq_ok {c : Prop} [Decidable c] {a : Unit} :
    (failIf c e : Call ε σ Unit) s = (.ok a, t) ↔ ¬c ∧ s = t := by
  by_cases h : c
  · simp [failIf, fail, h]
  · simp [failIf, h, pure, Call.pure]

theorem self_bind {f : C → Call ε (C × ρ) α} {s : C × ρ} : (self >>= f) s = f s.1 s := rfl

theorem update_bind {g : C → C} {f : Unit → Call ε (C × ρ) α} {s : C × ρ} :
    (update g >>= f) s = f () (g s.1, s.2) := rfl

theorem inRange_bind_eq_ok {o : Option β} {f : β → Call ε σ α} :
    (inRange o >>= f) s = (.ok a, t) ↔ ∃ b, o = some b ∧ f b s = (.ok a, t) := by
  simp [bind_eq_ok, inRange_eq_ok]

theorem orFail_bind_eq_ok {o : Option β} {f : β → Call ε σ α} :
    (orFail o e >>= f) s = (.ok a, t) ↔ ∃ b, o = some b ∧ f b s = (.ok a, t) := by
  simp [bind_eq_ok, orFail_eq_ok]

theorem ofExcept_bind_eq_ok {x : Except ε β} {f : β → Call ε σ α} :
    (ofExcept x >>= f) s = (.ok a, t) ↔ ∃ b, x = .ok b ∧ f b s = (.ok a, t) := by
  simp [bind_eq_ok, ofExcept_eq_ok]

section Preserves

variable {R : σ → σ → Prop} [IsPreorder σ R]

/-- However a call ends, it leaves a state related to the one it found. -/
def Preserves (R : σ → σ → Prop) (x : Call ε σ α) : Prop := ∀ s, R s (x s).2

omit [IsPreorder σ R] in
theorem Preserves.relates {x : Call ε σ α} (h : Preserves R x) (hx : x s = (r, s')) :
    R s s' := by
  have hs := h s
  rwa [hx] at hs

omit [IsPreorder σ R] in
theorem Preserves.mono {R' : σ → σ → Prop} {x : Call ε σ α} (h : Preserves R x)
    (hR : ∀ s s', R s s' → R' s s') : Preserves R' x := fun s => hR _ _ (h s)

theorem preserves_of_eq {x : Call ε σ α} (h : ∀ s, (x s).2 = s) : Preserves R x := by
  intro s
  rw [h s]
  exact refl s

theorem preserves_pure : Preserves R (pure a : Call ε σ α) := preserves_of_eq fun _ => rfl

theorem preserves_inRange {o : Option α} : Preserves R (inRange o : Call ε σ α) :=
  preserves_of_eq fun _ => by cases o <;> rfl

theorem preserves_orFail {o : Option α} : Preserves R (orFail o e : Call ε σ α) :=
  preserves_of_eq fun _ => by cases o <;> rfl

theorem preserves_ofExcept {x : Except ε α} : Preserves R (ofExcept x : Call ε σ α) :=
  preserves_of_eq fun _ => by cases x <;> rfl

theorem preserves_ofResult {r : Result ε α} : Preserves R (ofResult r : Call ε σ α) :=
  preserves_of_eq fun _ => rfl

theorem preserves_failIf {c : Prop} [Decidable c] :
    Preserves R (failIf c e : Call ε σ Unit) := by
  refine preserves_of_eq fun _ => ?_
  by_cases h : c
  · simp [failIf, fail, h]
  · simp [failIf, h, pure, Call.pure]

theorem Preserves.bind {x : Call ε σ β} {f : β → Call ε σ α} (hx : Preserves R x)
    (hf : ∀ b, Preserves R (f b)) : Preserves R (x >>= f) := by
  intro s
  have hs := hx s
  change R s (Call.bind x f s).2
  simp only [Call.bind]
  cases h : x s with
  | mk r s' =>
    rw [h] at hs
    cases r with
    | ok b => exact IsTrans.trans _ _ _ hs (hf b s')
    | error e => exact hs
    | panic => exact hs

end Preserves

end Call

/-- The backing array from the first element of the slice to its capacity, and its length. -/
structure Slice where
  arr : Bytes
  len : Nat
  len_le : len ≤ arr.length
  deriving DecidableEq

namespace Slice

def cap (s : Slice) : Nat := s.arr.length

def data (s : Slice) : Bytes := s.arr.take s.len

def make (n : Nat) : Slice := ⟨replicate n 0, n, by simp⟩

/-- `make([]byte, n, c)`, which panics when `c < n`. -/
def makeCap (n c : Nat) : Option Slice :=
  if h : n ≤ c then some ⟨replicate c 0, n, by simpa using h⟩ else none

/-- `s[:k]`. -/
def upTo (s : Slice) (k : Nat) : Option Slice :=
  if h : k ≤ s.cap then some ⟨s.arr, k, h⟩ else none

/-- `s[k:]`. -/
def downFrom (s : Slice) (k : Nat) : Option Slice :=
  if k ≤ s.len then some ⟨s.arr.drop k, s.len - k, by
    rw [length_drop]
    exact Nat.sub_le_sub_right s.len_le k⟩ else none

/-- `s[i:j]`. -/
def between (s : Slice) (i j : Nat) : Option Slice :=
  if h : i ≤ j ∧ j ≤ s.cap then some ⟨s.arr.drop i, j - i, by
    rw [length_drop]
    exact Nat.sub_le_sub_right h.2 i⟩ else none

/-- `s[i]`. -/
def index (s : Slice) (i : Nat) : Option UInt8 := s.data[i]?

/-- Bytes written through any slice that shares the backing array, from position `k` on. -/
def store (s : Slice) (k : Nat) (bs : Bytes) : Slice :=
  ⟨s.arr.take k ++ bs ++ s.arr.drop (k + bs.length), s.len, by
    have h := s.len_le
    simp only [length_append, length_take, length_drop]
    omega⟩

/-- `append(s, bs...)`; a new array when the capacity does not suffice. -/
def append (s : Slice) (bs : Bytes) : Slice :=
  if s.len + bs.length ≤ s.cap then
    { s.store s.len bs with
      len := s.len + bs.length
      len_le := by
        have h := s.len_le
        simp only [store, length_append, length_take, length_drop]
        omega }
  else ⟨s.data ++ bs, (s.data ++ bs).length, le_rfl⟩

@[simp] theorem cap_make (n : Nat) : (make n).cap = n := by simp [make, cap]

@[simp] theorem len_make (n : Nat) : (make n).len = n := rfl

theorem length_data (s : Slice) : s.data.length = s.len := length_take_of_le s.len_le

theorem index_of_lt {s : Slice} (h : i < s.len) : ∃ x, s.index i = some x :=
  ⟨_, getElem?_eq_getElem (s.length_data.symm ▸ h)⟩

theorem upTo_of_le {s : Slice} (h : k ≤ s.cap) : s.upTo k = some ⟨s.arr, k, h⟩ := dif_pos h

theorem downFrom_of_le {s : Slice} (h : k ≤ s.len) :
    ∃ t, s.downFrom k = some t ∧ t.data = s.data.drop k ∧ t.len = s.len - k := by
  refine ⟨_, if_pos h, ?_, rfl⟩
  simp only [data, drop_take]

theorem of_downFrom {s t : Slice} (h : s.downFrom k = some t) : k ≤ s.len ∧ t.len = s.len - k := by
  simp only [downFrom] at h
  split at h
  case isTrue hk =>
    cases h
    exact ⟨hk, rfl⟩
  case isFalse => cases h

theorem len_of_upTo {s t : Slice} (h : s.upTo k = some t) : t.len = k := by
  simp only [upTo] at h
  split at h
  · cases h
    rfl
  · cases h

theorem len_of_makeCap {t : Slice} (h : makeCap n c = some t) : t.len = n := by
  simp only [makeCap] at h
  split at h
  · cases h
    rfl
  · cases h

theorem between_of_le {s : Slice} (hij : i ≤ j) (hj : j ≤ s.cap) :
    ∃ t, s.between i j = some t ∧ t.data = (s.arr.take j).drop i := by
  refine ⟨_, dif_pos ⟨hij, hj⟩, ?_⟩
  simp only [data, drop_take]

theorem cap_store {s : Slice} (h : k + d.length ≤ s.cap) : (s.store k d).cap = s.cap := by
  simp only [cap, store, length_append, length_take, length_drop] at h ⊢
  omega

theorem cap_le_cap_store (s : Slice) (k : Nat) (d : Bytes) : s.cap ≤ (s.store k d).cap := by
  simp only [cap, store, length_append, length_take, length_drop]
  omega

theorem le_cap_store {s : Slice} (h : n ≤ s.cap) : n ≤ (s.store k d).cap :=
  h.trans (cap_le_cap_store s k d)

@[simp] theorem len_store (s : Slice) (k : Nat) (d : Bytes) : (s.store k d).len = s.len := rfl

theorem arr_store {s : Slice} (h : s.arr = x ++ (y ++ z)) (hx : x.length = k)
    (hd : d.length = y.length) : (s.store k d).arr = x ++ (d ++ z) := by
  have hxy : (x ++ y).length = k + d.length := by rw [length_append, hx, hd]
  simp only [store]
  rw [← hxy, h, ← append_assoc x y z, drop_left, append_assoc x y z,
    take_left' hx, append_assoc]

theorem take_store {s : Slice} (h : k ≤ s.cap) (hn : k + d.length = n) :
    (s.store k d).arr.take n = s.arr.take k ++ d := by
  have hk : (s.arr.take k ++ d).length = n := by
    rw [length_append, length_take, Nat.min_eq_left (show k ≤ s.arr.length from h), hn]
  simp only [store]
  rw [← hk, take_left]

theorem take_store_zero {s : Slice} (h : d.length = n) : (s.store 0 d).arr.take n = d :=
  take_store (Nat.zero_le _) (h ▸ Nat.zero_add _)

theorem data_append (s : Slice) (d : Bytes) : (s.append d).data = s.data ++ d := by
  simp only [append]
  split
  · exact take_store s.len_le rfl
  · exact take_length

theorem upTo_of_data {s : Slice} (h : s.data = y ++ z) (hy : y.length = k) :
    ∃ t, s.upTo k = some t ∧ t.data = y := by
  have hlen : y.length ≤ s.len := by
    rw [← s.length_data, h, length_append]
    exact Nat.le_add_right _ _
  refine ⟨_, upTo_of_le (hy ▸ hlen.trans s.len_le), ?_⟩
  have ht := congrArg (take k) h
  rwa [data, take_take, Nat.min_eq_left (hy ▸ hlen), take_left' hy] at ht

theorem data_store_append {s : Slice} (h : s.data = y ++ z) (hd : d.length = y.length) :
    (s.store 0 d).data = d ++ z := by
  have harr : s.arr = [] ++ (y ++ (z ++ s.arr.drop s.len)) := by
    rw [nil_append, ← append_assoc, ← h, data, take_append_drop]
  have hlen : (d ++ z).length = s.len := by
    rw [← s.length_data, h, length_append, length_append, hd]
  rw [data, len_store, arr_store harr length_nil hd, nil_append, ← append_assoc,
    take_left' hlen]

theorem data_store {s : Slice} (h : d.length = s.len) : (s.store 0 d).data = d := by
  rw [data, len_store, take_store_zero h]

end Slice

/-- What `io.ReadFull` returns when the reader's error comes in the middle of a read. -/
class ReadError (ε : Type) where
  midway : ε → ε

/-- The bytes a reader still delivers, and the error it returns after them. -/
structure Reader (ε : Type) where
  bytes : Bytes
  final : ε

/-- A writer whose error, once set, is returned by every later write. -/
structure Writer (ε : Type) where
  out : Bytes
  failed : Option ε

/-- What a writing call is given: the writer and the source of random bytes. -/
structure Sink (ε : Type) where
  w : Writer ε
  rand : Reader ε

def write (bs : Bytes) : Call ε (C × Sink ε) Unit := fun s =>
  match s.2.w.failed with
  | none => (.ok (), s.1, { s.2 with w.out := s.2.w.out ++ bs })
  | some e => (.error e, s)

theorem wp_write {Q : Unit → C × Sink ε → Prop} {E} {r : Reader ε} :
    (write d).wp Q E (c, ⟨⟨out, none⟩, r⟩) ↔ Q () (c, ⟨⟨out ++ d, none⟩, r⟩) := Iff.rfl

theorem write_eq_ok {k : Sink ε} :
    (write d : Call ε (C × Sink ε) Unit) (c, k) = (.ok u, t) ↔
      k.w.failed = none ∧ t = (c, ⟨⟨k.w.out ++ d, none⟩, k.rand⟩) := by
  cases k with
  | mk w rand =>
    cases w with
    | mk out failed =>
      cases failed with
      | none => simp [write, eq_comm]
      | some e => simp [write]

section Io

variable {ε C : Type} [ReadError ε]

/-- `io.ReadFull`: the bytes read, the error, and the reader afterwards. -/
def Reader.readFull (r : Reader ε) (n : Nat) : Bytes × Option ε × Reader ε :=
  if n ≤ r.bytes.length then (r.bytes.take n, none, { r with bytes := r.bytes.drop n })
  else (r.bytes, some (if r.bytes = [] then r.final else ReadError.midway r.final),
    { r with bytes := [] })

/-- `io.CopyN(ioutil.Discard, r, n)`. -/
def Reader.discard (r : Reader ε) (n : Nat) : Reader ε := { r with bytes := r.bytes.drop n }

/-- `io.ReadFull(r, b)` into a buffer of the receiver. -/
def readInto (store : Bytes → C → C) (n : Nat) : Call ε (C × Reader ε) Unit := fun s =>
  match s.2.readFull n with
  | (bs, none, r) => (.ok (), store bs s.1, r)
  | (bs, some e, r) => (.error e, store bs s.1, r)

/-- `io.ReadFull(r, b[:])` into a local array of `n` bytes. -/
def readFull (n : Nat) : Call ε (C × Reader ε) Bytes := fun s =>
  match s.2.readFull n with
  | (bs, none, r) => (.ok bs, s.1, r)
  | (_, some e, r) => (.error e, s.1, r)

/-- `io.ReadFull(rand, b)`. -/
def readRand (n : Nat) : Call ε (C × Sink ε) Bytes := fun s =>
  match s.2.rand.readFull n with
  | (bs, none, r) => (.ok bs, s.1, { s.2 with rand := r })
  | (_, some e, r) => (.error e, s.1, { s.2 with rand := r })

variable {Q : Unit → C × Reader ε → Prop} {E : C × Reader ε → Prop} {c : C} {r : Reader ε}

@[simp] theorem wp_readInto :
    (readInto st n).wp Q E (c, r) ↔
      (n ≤ r.bytes.length → Q () (st (r.bytes.take n) c, { r with bytes := r.bytes.drop n })) ∧
      (r.bytes.length < n → E (st r.bytes c, { r with bytes := [] })) := by
  by_cases h : n ≤ r.bytes.length
  · simp [Call.wp, readInto, Reader.readFull, h, Nat.not_lt.mpr h]
  · simp [Call.wp, readInto, Reader.readFull, h, Nat.not_le.mp h]

@[simp] theorem wp_readFull {Q : Bytes → C × Reader ε → Prop} :
    (readFull n).wp Q E (c, r) ↔
      (n ≤ r.bytes.length → Q (r.bytes.take n) (c, { r with bytes := r.bytes.drop n })) ∧
      (r.bytes.length < n → E (c, { r with bytes := [] })) := by
  by_cases h : n ≤ r.bytes.length
  · simp [Call.wp, readFull, Reader.readFull, h, Nat.not_lt.mpr h]
  · simp [Call.wp, readFull, Reader.readFull, h, Nat.not_le.mp h]

theorem wp_readRand {Q : Bytes → C × Sink ε → Prop} {E} (h : d.length = n) :
    (readRand n).wp Q E (c, ⟨w, ⟨d ++ d', e⟩⟩) ↔ Q d (c, ⟨w, ⟨d', e⟩⟩) := by
  have hn : n ≤ d.length + d'.length := by omega
  simp [Call.wp, readRand, Reader.readFull, hn, take_left' h, drop_left' h]

theorem readRand_eq_ok {k : Sink ε} :
    (readRand n : Call ε (C × Sink ε) Bytes) (c, k) = (.ok d, t) ↔
      n ≤ k.rand.bytes.length ∧ d = k.rand.bytes.take n ∧
        t = (c, { k with rand.bytes := k.rand.bytes.drop n }) := by
  by_cases h : n ≤ k.rand.bytes.length
  · simp [readRand, Reader.readFull, h, eq_comm]
  · simp [readRand, Reader.readFull, h]

end Io

end Go
