import Gobbler.Lib.Effect

namespace Effect

variable {ε σ τ α β α' β' : Type}

/-- Two computations end the same way: both with a value, or both early. -/
def Both (m : EStateM ε σ α) (s : σ) (n : EStateM ε τ β) (t : τ) (Q : α → σ → β → τ → Prop)
    (E : ε → σ → ε → τ → Prop) : Prop :=
  Ends m s (fun a s' => Ends n t (fun b t' => Q a s' b t') fun _ _ => False)
    fun e s' => Ends n t (fun _ _ => False) fun e' t' => E e s' e' t'

theorem Both.bind {m : EStateM ε σ α} {f : α → EStateM ε σ α'} {n : EStateM ε τ β}
    {g : β → EStateM ε τ β'} {s : σ} {t : τ} {Q : α' → σ → β' → τ → Prop}
    {E : ε → σ → ε → τ → Prop}
    (h : Both m s n t (fun a s' b t' => Both (f a) s' (g b) t' Q E) E) :
    Both (m >>= f) s (n >>= g) t Q E := by
  unfold Both Ends at h ⊢
  cases hm : m s with
  | ok a s' =>
    cases hn : n t with
    | ok b t' =>
      rw [bind_ok hm, bind_ok hn]
      simpa only [hm, hn] using h
    | error e t' => simp only [hm, hn] at h
  | error e s' =>
    cases hn : n t with
    | ok b t' => simp only [hm, hn] at h
    | error e' t' =>
      rw [bind_error hm, bind_error hn]
      simpa only [hm, hn] using h

theorem Both.weaken {m : EStateM ε σ α} {n : EStateM ε τ β} {s : σ} {t : τ}
    {Q Q' : α → σ → β → τ → Prop} {E E' : ε → σ → ε → τ → Prop} (h : Both m s n t Q E)
    (hq : ∀ a s' b t', Q a s' b t' → Q' a s' b t') (he : ∀ e s' e' t', E e s' e' t' → E' e s' e' t') :
    Both m s n t Q' E' :=
  h.mono (fun a s' hn => hn.mono (hq a s') fun _ _ h => h)
    fun e s' hn => hn.mono (fun _ _ h => h) (he e s')

/-- In related states the two computations go on in step: the same errors, values
related by `V`, and related states again. -/
def Couples (R : σ → τ → Prop) (V : α → β → Prop) (m : EStateM ε σ α) (n : EStateM ε τ β) : Prop :=
  ∀ s t, R s t → Both m s n t (fun a s' b t' => V a b ∧ R s' t') fun e s' e' t' => e' = e ∧ R s' t'

variable {R : σ → τ → Prop} {V : α → β → Prop} {W : α' → β' → Prop}

theorem couples_pure {a : α} {b : β} (h : V a b) :
    Couples R V (pure a : EStateM ε σ α) (pure b : EStateM ε τ β) :=
  fun _ _ hr => ⟨h, hr⟩

theorem couples_throw (e : ε) :
    Couples R V (throw e : EStateM ε σ α) (throw e : EStateM ε τ β) :=
  fun _ _ hr => ⟨rfl, hr⟩

theorem couples_get : Couples R R (get : EStateM ε σ σ) (get : EStateM ε τ τ) :=
  fun _ _ hr => ⟨hr, hr⟩

theorem couples_set {s : σ} {t : τ} (h : R s t) :
    Couples R (fun _ _ => True) (set s : EStateM ε σ PUnit) (set t : EStateM ε τ PUnit) :=
  fun _ _ _ => ⟨trivial, h⟩

theorem couples_modify {f : σ → σ} {g : τ → τ} (h : ∀ s t, R s t → R (f s) (g t)) :
    Couples R (fun _ _ => True) (modify f : EStateM ε σ PUnit) (modify g : EStateM ε τ PUnit) :=
  fun s t hr => ⟨trivial, h s t hr⟩

theorem couples_bind {m : EStateM ε σ α} {f : α → EStateM ε σ α'} {n : EStateM ε τ β}
    {g : β → EStateM ε τ β'} (h : Couples R V m n) (hf : ∀ a b, V a b → Couples R W (f a) (g b)) :
    Couples R W (m >>= f) (n >>= g) := by
  intro s t hr
  apply Both.bind
  exact (h s t hr).weaken (fun a s' b t' h' => hf a b h'.1 s' t' h'.2) fun _ _ _ _ he => he

/-- The rule of sequence for computations that give the same value. -/
theorem couples_seq {m : EStateM ε σ α} {f : α → EStateM ε σ α'} {n : EStateM ε τ α}
    {g : α → EStateM ε τ β'} (h : Couples R Eq m n) (hf : ∀ a, Couples R W (f a) (g a)) :
    Couples R W (m >>= f) (n >>= g) := by
  apply couples_bind h
  rintro a _ rfl
  exact hf a

theorem couples_ite {c d : Prop} [Decidable c] [Decidable d] {m m' : EStateM ε σ α}
    {n n' : EStateM ε τ β} (h : c ↔ d) (hm : c → Couples R V m n) (hn : ¬c → Couples R V m' n') :
    Couples R V (if c then m else m') (if d then n else n') := by
  by_cases hc : c
  · rw [if_pos hc, if_pos (h.mp hc)]
    exact hm hc
  · rw [if_neg hc, if_neg ((not_congr h).mp hc)]
    exact hn hc

theorem couples_upTo {body : Nat → EStateM ε σ PUnit} {body' : Nat → EStateM ε τ PUnit}
    (h : ∀ i, Couples R Eq (body i) (body' i)) (n : Nat) :
    Couples R Eq (upTo body n) (upTo body' n) := by
  induction n with
  | zero => exact couples_pure rfl
  | succ n ih => exact couples_seq ih fun _ => h n

theorem couples_times {body : EStateM ε σ PUnit} {body' : EStateM ε τ PUnit}
    (h : Couples R Eq body body') (n : Nat) : Couples R Eq (times body n) (times body' n) := by
  induction n with
  | zero => exact couples_pure rfl
  | succ n ih => exact couples_seq h fun _ => ih

end Effect
