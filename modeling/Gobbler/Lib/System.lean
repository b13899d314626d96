import Mathlib.Logic.Function.Iterate

namespace System

variable {σ τ : Type}

/-- The concrete steps are moves of a relation on views, as long as the views
satisfy `I`, and the moves keep `I`. -/
structure Refines (step : σ → σ) (view : σ → τ) (move : τ → τ → Prop) (I : τ → Prop) : Prop where
  moves : ∀ s, I (view s) → move (view s) (view (step s))
  keeps : ∀ a b, I a → move a b → I b

section runs

variable {step : σ → σ} {view : σ → τ} {move : τ → τ → Prop} {I J : τ → Prop}

/-- What every step keeps holds all along a run. -/
theorem always {P : σ → Prop} {s : σ} (h : P s) (hstep : ∀ t, P t → P (step t)) (n : Nat) :
    P (step^[n] s) := by
  induction n with
  | zero => exact h
  | succ n ih =>
    rw [Function.iterate_succ_apply']
    exact hstep _ ih

theorem Refines.always (h : Refines step view move I) {s : σ} (hi : I (view s)) (n : Nat) :
    I (view (step^[n] s)) :=
  System.always (P := fun t => I (view t)) hi (fun t ht => h.keeps _ _ ht (h.moves t ht)) n

theorem Refines.moved (h : Refines step view move I) {s : σ} (hi : I (view s)) (n : Nat) :
    move (view (step^[n] s)) (view (step^[n + 1] s)) := by
  rw [Function.iterate_succ_apply']
  exact h.moves _ (h.always hi n)

/-- What every move made under `G` keeps holds in a run whose steps are all made under `G`. -/
theorem Refines.under {G : τ → Prop} (h : Refines step view move I) {s : σ} (hi : I (view s))
    (hj : J (view s)) (hkeep : ∀ a b, I a → J a → G a → move a b → J b) (n : Nat)
    (hg : ∀ k, k < n → G (view (step^[k] s))) : J (view (step^[n] s)) := by
  induction n with
  | zero => exact hj
  | succ n ih =>
    have hn := ih fun k hk => hg k (Nat.lt_succ_of_lt hk)
    exact hkeep _ _ (h.always hi n) hn (hg n (Nat.lt_succ_self n)) (h.moved hi n)

/-- An invariant of the moves that relies on an earlier one. -/
theorem Refines.and (h : Refines step view move I)
    (hj : ∀ a b, I a → J a → move a b → J b) :
    Refines step view move fun a => I a ∧ J a :=
  ⟨fun s hs => h.moves s hs.1, fun a b ha hm => ⟨h.keeps a b ha.1 hm, hj a b ha.1 ha.2 hm⟩⟩

/-- What every step can only extend was extended between any two points of a run. -/
theorem along {R : σ → σ → Prop} {s : σ} (hrefl : ∀ t, R t t)
    (htrans : ∀ {t u v}, R t u → R u v → R t v)
    (hstep : ∀ n, R (step^[n] s) (step^[n + 1] s)) (m n : Nat) :
    R (step^[m] s) (step^[m + n] s) := by
  induction n with
  | zero => exact hrefl _
  | succ n ih => exact htrans ih (hstep (m + n))

end runs

/-- From every state with `P` the run comes to one with `Q`. -/
def Leads (step : σ → σ) (P Q : σ → Prop) : Prop := ∀ s, P s → ∃ n, Q (step^[n] s)

section leads

variable {step : σ → σ} {P Q R : σ → Prop}

theorem Leads.trans (h : Leads step P Q) (h' : Leads step Q R) : Leads step P R := by
  intro s hs
  obtain ⟨m, hm⟩ := h s hs
  obtain ⟨n, hn⟩ := h' _ hm
  refine ⟨n + m, ?_⟩
  rwa [Function.iterate_add_apply]

/-- A loop ends when each of its rounds leads out or to a smaller measure. -/
theorem Leads.of_measure (f : σ → Nat)
    (h : ∀ k, Leads step (fun s => P s ∧ f s = k) fun s => Q s ∨ (P s ∧ f s < k)) :
    Leads step P Q := by
  suffices hk : ∀ k, Leads step (fun s => P s ∧ f s = k) Q from fun s hs => hk (f s) s ⟨hs, rfl⟩
  intro k
  induction k using Nat.strongRecOn with
  | ind k ih =>
    refine (h k).trans ?_
    rintro s (hq | ⟨hp, hlt⟩)
    · exact ⟨0, hq⟩
    · exact ih (f s) hlt s ⟨hp, rfl⟩

end leads

end System
