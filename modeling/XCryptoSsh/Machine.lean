import Mathlib.Algebra.BigOperators.Ring.Finset
import Mathlib.Algebra.Order.BigOperators.Group.Finset

namespace Machine
open Option List Function
set_option autoImplicit true

variable {σ : Type u} {α : Type v}

/-- The state a schedule leads to, when every action of it is enabled. -/
def exec (step : σ → α → Option σ) : σ → List α → Option σ
  | s, [] => some s
  | s, a :: as => (step s a).bind fun s' => exec step s' as

/-- Every action of the schedule is taken in a state that meets the guard. -/
def Along (step : σ → α → Option σ) (G : σ → α → Prop) : σ → List α → Prop
  | _, [] => True
  | s, a :: as => G s a ∧ ∀ s', step s a = some s' → Along step G s' as

variable {step : σ → α → Option σ} {G : σ → α → Prop} {I J : σ → Prop}

theorem of_guard {c : Prop} [Decidable c] (h : (if c then some s else none) = some t) :
    c ∧ s = t := by
  simpa only [ite_none_right_eq_some, some.injEq] using h

theorem exec_cons_some (h : exec step s (a :: as) = some t) :
    ∃ s', step s a = some s' ∧ exec step s' as = some t := by
  simpa only [exec, bind_eq_some_iff] using h

theorem exec_append (as bs : List α) :
    exec step s (as ++ bs) = (exec step s as).bind fun s' => exec step s' bs := by
  induction as generalizing s with
  | nil => rfl
  | cons a as ih =>
    simp only [cons_append, exec, bind_assoc]
    congr 1
    funext s'
    exact ih

theorem along_append (h : Along step G s (as ++ bs)) (hs : exec step s as = some s') :
    Along step G s as ∧ Along step G s' bs := by
  induction as generalizing s with
  | nil =>
    simp only [exec, some.injEq] at hs
    subst hs
    exact ⟨trivial, h⟩
  | cons a as ih =>
    obtain ⟨t, ht, hts⟩ := exec_cons_some hs
    have hr := ih (h.2 t ht) hts
    refine ⟨⟨h.1, ?_⟩, hr.2⟩
    intro t' ht'
    cases ht.symm.trans ht'
    exact hr.1

theorem run_invariant (hI : ∀ s a s', I s → G s a → step s a = some s' → I s')
    (h₀ : I s) (hg : Along step G s as) (h : exec step s as = some s') : I s' := by
  induction as generalizing s with
  | nil =>
    simp only [exec, some.injEq] at h
    exact h ▸ h₀
  | cons a as ih =>
    obtain ⟨t, ht, hts⟩ := exec_cons_some h
    exact ih (hI s a t h₀ hg.1 ht) (hg.2 t ht) hts

theorem run_flag (f : σ → Bool) (p : α → Bool)
    (hf : ∀ s a s', step s a = some s' → f s' = (f s || p a)) (h : exec step s as = some s') :
    f s' = (f s || as.any p) := by
  induction as generalizing s with
  | nil =>
    cases h
    simp
  | cons a as ih =>
    obtain ⟨t, ht, hts⟩ := exec_cons_some h
    rw [ih hts, hf s a t ht, any_cons, Bool.or_assoc]

theorem run_potential (f : σ → Nat) (cost gain : α → Nat)
    (hI : ∀ s a s', I s → G s a → step s a = some s' → I s')
    (hf : ∀ s a s', I s → G s a → step s a = some s' → cost a + f s' ≤ f s + gain a)
    (h₀ : I s) (hg : Along step G s as) (h : exec step s as = some s') :
    (as.map cost).sum + f s' ≤ f s + (as.map gain).sum := by
  induction as generalizing s with
  | nil =>
    simp only [exec, some.injEq] at h
    subst h
    simp
  | cons a as ih =>
    obtain ⟨t, ht, hts⟩ := exec_cons_some h
    have h₁ := hf s a t h₀ hg.1 ht
    have h₂ := ih (hI s a t h₀ hg.1 ht) (hg.2 t ht) hts
    simp only [map_cons, sum_cons]
    omega

theorem along_cons (hg : G s a) (hs : step s a = some s') (h : Along step G s' as) :
    Along step G s (a :: as) := by
  refine ⟨hg, ?_⟩
  intro t ht
  cases hs.symm.trans ht
  exact h

theorem exists_of_not_along (hg : ¬ Along step G s as) (h : exec step s as = some t) :
    ∃ bs a cs s', as = bs ++ a :: cs ∧ Along step G s bs ∧ exec step s bs = some s' ∧ ¬ G s' a ∧
      exec step s' (a :: cs) = some t := by
  induction as generalizing s with
  | nil => exact absurd trivial hg
  | cons a as ih =>
    obtain ⟨u, hu, hut⟩ := exec_cons_some h
    by_cases ha : G s a
    · have hn : ¬ Along step G u as := fun hu' => hg (by
        refine ⟨ha, ?_⟩
        intro u' hu''
        cases hu.symm.trans hu''
        exact hu')
      obtain ⟨bs, b, cs, s', has, hbs, hs', hb, hcs⟩ := ih hn hut
      refine ⟨a :: bs, b, cs, s', by rw [has, cons_append], ?_, ?_, hb, hcs⟩
      · refine ⟨ha, ?_⟩
        intro u' hu''
        cases hu.symm.trans hu''
        exact hbs
      · rw [exec, hu]
        exact hs'
    · exact ⟨[], a, as, s, rfl, trivial, rfl, ha, h⟩

theorem along_of_forall {s : σ} (h : ∀ a ∈ as, ∀ s, G s a) : Along step G s as := by
  induction as generalizing s with
  | nil => trivial
  | cons a as ih =>
    exact ⟨h a mem_cons_self s, fun _ _ => ih fun b hb => h b (mem_cons_of_mem a hb)⟩

theorem along_mono {H : σ → α → Prop} (hh : ∀ s a, G s a → H s a) (hg : Along step G s as) :
    Along step H s as := by
  induction as generalizing s with
  | nil => trivial
  | cons a as ih => exact ⟨hh s a hg.1, fun s' hs => ih (hg.2 s' hs)⟩

theorem along_and {H : σ → α → Prop} (hg : Along step G s as) (hh : Along step H s as) :
    Along step (fun s a => G s a ∧ H s a) s as := by
  induction as generalizing s with
  | nil => trivial
  | cons a as ih => exact ⟨⟨hg.1, hh.1⟩, fun s' hs => ih (hg.2 s' hs) (hh.2 s' hs)⟩

instance decidableAlong [∀ s a, Decidable (G s a)] :
    (s : σ) → (as : List α) → Decidable (Along step G s as)
  | _, [] => isTrue trivial
  | s, a :: as =>
    have (s' : σ) : Decidable (Along step G s' as) := decidableAlong s' as
    inferInstanceAs (Decidable (G s a ∧ ∀ s' ∈ step s a, Along step G s' as))

def paired (step : σ → α → Option σ) (s : σ × σ) (a : α × α) : Option (σ × σ) :=
  (step s.1 a.1).bind fun s₁ => (step s.2 a.2).map (s₁, ·)

theorem paired_eq_some : paired step s a = some t ↔
    step s.1 a.1 = some t.1 ∧ step s.2 a.2 = some t.2 := by
  simp only [paired, bind_eq_some_iff, map_eq_some_iff]
  constructor
  · rintro ⟨s₁, h₁, s₂, h₂, rfl⟩
    exact ⟨h₁, h₂⟩
  · rintro ⟨h₁, h₂⟩
    exact ⟨t.1, h₁, t.2, h₂, rfl⟩

theorem exec_paired {as : List (α × α)} {s t : σ × σ}
    (h₁ : exec step s.1 (as.map Prod.fst) = some t.1)
    (h₂ : exec step s.2 (as.map Prod.snd) = some t.2) : exec (paired step) s as = some t := by
  induction as generalizing s with
  | nil =>
    have h : s = t := Prod.ext (some.inj h₁) (some.inj h₂)
    rw [h]
    rfl
  | cons a as ih =>
    obtain ⟨s₁, hs₁, ht₁⟩ := exec_cons_some h₁
    obtain ⟨s₂, hs₂, ht₂⟩ := exec_cons_some h₂
    have hs : paired step s a = some (s₁, s₂) := paired_eq_some.mpr ⟨hs₁, hs₂⟩
    rw [exec, hs]
    exact ih ht₁ ht₂

def observed (step : σ → α → Option σ) (obs : σ → α → List β) : σ → List α → List β
  | _, [] => []
  | s, a :: as => obs s a ++ (step s a).elim [] fun s' => observed step obs s' as

theorem run_simulates {R : σ → τ → Prop} {obs : σ → α → List β} (next : τ → β → τ)
    (hR : ∀ s a s' t, R s t → G s a → step s a = some s' → R s' ((obs s a).foldl next t))
    (h₀ : R s t) (hg : Along step G s as) (h : exec step s as = some s') :
    R s' ((observed step obs s as).foldl next t) := by
  induction as generalizing s t with
  | nil =>
    simp only [exec, some.injEq] at h
    exact h ▸ h₀
  | cons a as ih =>
    obtain ⟨u, hu, hus⟩ := exec_cons_some h
    rw [observed, hu, foldl_append]
    exact ih (hR s a u t h₀ hg.1 hu) (hg.2 u hu) hus

section Pool

variable {ι : Type w} [Fintype ι]

def tally (f : α → Nat) (g : ι → α) : Nat := ∑ i, f (g i)

theorem tally_update [DecidableEq ι] (f : α → Nat) (g : ι → α) (i : ι) (x : α) :
    tally f (update g i x) + f (g i) = tally f g + f x := by
  have h : (fun j => f (update g i x j)) = update (fun j => f (g j)) i (f x) := by
    funext j
    by_cases hj : j = i
    · subst hj
      simp
    · simp [hj]
  unfold tally
  rw [h, Finset.sum_update_of_mem (Finset.mem_univ i),
    ← Finset.add_sum_erase _ (fun j => f (g j)) (Finset.mem_univ i),
      Finset.sdiff_singleton_eq_erase]
  omega

theorem le_tally (f : α → Nat) (g : ι → α) (i : ι) : f (g i) ≤ tally f g :=
  Finset.single_le_sum_of_canonicallyOrdered (f := fun j => f (g j)) (Finset.mem_univ i)

theorem tally_eq_zero {f : α → Nat} {g : ι → α} (h : ∀ i, f (g i) = 0) : tally f g = 0 :=
  Finset.sum_eq_zero fun i _ => h i

end Pool

end Machine
