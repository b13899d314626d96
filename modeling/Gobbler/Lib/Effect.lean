import Mathlib.Order.Defs.Unbundled

namespace Effect

variable {ε σ α β : Type}

/-- Where a computation ends: with a value, or early. Both ends keep their state. -/
def Ends (m : EStateM ε σ α) (s : σ) (Q : α → σ → Prop) (E : ε → σ → Prop) : Prop :=
  match m s with
  | .ok a t => Q a t
  | .error e t => E e t

@[simp] theorem ends_pure {a : α} {s : σ} {Q : α → σ → Prop} {E : ε → σ → Prop} :
    Ends (pure a : EStateM ε σ α) s Q E ↔ Q a s := Iff.rfl

@[simp] theorem ends_throw {e : ε} {s : σ} {Q : α → σ → Prop} {E : ε → σ → Prop} :
    Ends (throw e : EStateM ε σ α) s Q E ↔ E e s := Iff.rfl

@[simp] theorem ends_get {s : σ} {Q : σ → σ → Prop} {E : ε → σ → Prop} :
    Ends (get : EStateM ε σ σ) s Q E ↔ Q s s := Iff.rfl

@[simp] theorem ends_set {s t : σ} {Q : PUnit → σ → Prop} {E : ε → σ → Prop} :
    Ends (set t : EStateM ε σ PUnit) s Q E ↔ Q ⟨⟩ t := Iff.rfl

@[simp] theorem ends_modify {f : σ → σ} {s : σ} {Q : PUnit → σ → Prop} {E : ε → σ → Prop} :
    Ends (modify f : EStateM ε σ PUnit) s Q E ↔ Q ⟨⟩ (f s) := Iff.rfl

@[simp] theorem ends_bind {m : EStateM ε σ α} {f : α → EStateM ε σ β} {s : σ}
    {Q : β → σ → Prop} {E : ε → σ → Prop} :
    Ends (m >>= f) s Q E ↔ Ends m s (fun a t => Ends (f a) t Q E) E := by
  simp only [Ends, bind, EStateM.bind]
  cases m s <;> rfl

theorem bind_ok {m : EStateM ε σ α} {f : α → EStateM ε σ β} {s t : σ} {a : α}
    (h : m s = .ok a t) : (m >>= f) s = f a t := by
  simp only [bind, EStateM.bind, h]

theorem bind_error {m : EStateM ε σ α} {f : α → EStateM ε σ β} {s t : σ} {e : ε}
    (h : m s = .error e t) : (m >>= f) s = .error e t := by
  simp only [bind, EStateM.bind, h]

theorem ends_ite {c : Prop} [Decidable c] {m n : EStateM ε σ α} {s : σ}
    {Q : α → σ → Prop} {E : ε → σ → Prop} :
    Ends (if c then m else n) s Q E ↔ (c → Ends m s Q E) ∧ (¬c → Ends n s Q E) := by
  split <;> simp_all

theorem ends_congr {m m' : EStateM ε σ α} {s : σ} {Q : α → σ → Prop} {E : ε → σ → Prop}
    (h : m s = m' s) : Ends m s Q E ↔ Ends m' s Q E := by
  rw [Ends, Ends, h]

/-- What a call was shown to do can be weakened to what its caller needs. -/
theorem Ends.mono {m : EStateM ε σ α} {s : σ} {Q Q' : α → σ → Prop} {E E' : ε → σ → Prop}
    (h : Ends m s Q E) (hq : ∀ a t, Q a t → Q' a t) (he : ∀ e t, E e t → E' e t) :
    Ends m s Q' E' := by
  unfold Ends at h ⊢
  split <;> simp_all

/-- The rule of consequence for the value alone. -/
theorem Ends.imp {m : EStateM ε σ α} {s : σ} {Q Q' : α → σ → Prop} {E : ε → σ → Prop}
    (h : Ends m s Q E) (hq : ∀ a t, Q a t → Q' a t) : Ends m s Q' E :=
  h.mono hq fun _ _ he => he

/-- The rule of sequence. -/
theorem Ends.bind {m : EStateM ε σ α} {f : α → EStateM ε σ β} {s : σ} {Q : α → σ → Prop}
    {Q' : β → σ → Prop} {E : ε → σ → Prop} (h : Ends m s Q E)
    (hf : ∀ a t, Q a t → Ends (f a) t Q' E) : Ends (m >>= f) s Q' E := by
  rw [ends_bind]
  exact h.imp hf

theorem Ends.and {m : EStateM ε σ α} {s : σ} {Q Q' : α → σ → Prop} {E E' : ε → σ → Prop}
    (h : Ends m s Q E) (h' : Ends m s Q' E') :
    Ends m s (fun a t => Q a t ∧ Q' a t) (fun e t => E e t ∧ E' e t) := by
  unfold Ends at h h' ⊢
  split <;> simp_all

/-- What holds of every end holds of the end of any call. -/
theorem ends_any {m : EStateM ε σ α} {s : σ} {Q : α → σ → Prop} {E : ε → σ → Prop}
    (hq : ∀ a t, Q a t) (he : ∀ e t, E e t) : Ends m s Q E := by
  unfold Ends
  split
  · exact hq _ _
  · exact he _ _

/-- What holds of a call under an assumption may be assumed of its end. -/
theorem Ends.under {m : EStateM ε σ α} {s : σ} {P : Prop} {Q : α → σ → Prop} {E : ε → σ → Prop}
    (h : P → Ends m s Q E) : Ends m s (fun a t => P → Q a t) (fun e t => P → E e t) := by
  by_cases hp : P
  · exact (h hp).mono (fun _ _ hq _ => hq) fun _ _ he _ => he
  · unfold Ends
    split <;> exact fun h => absurd h hp

theorem Ends.ok {m : EStateM ε σ α} {s t : σ} {a : α} {Q : α → σ → Prop} {E : ε → σ → Prop}
    (h : Ends m s Q E) (hm : m s = .ok a t) : Q a t := by
  simpa [Ends, hm] using h

theorem Ends.error {m : EStateM ε σ α} {s t : σ} {e : ε} {Q : α → σ → Prop} {E : ε → σ → Prop}
    (h : Ends m s Q E) (hm : m s = .error e t) : E e t := by
  simpa [Ends, hm] using h

/-- What never stops early returns. -/
theorem Ends.returns {m : EStateM ε σ α} {s : σ} {Q : α → σ → Prop} {E : ε → σ → Prop}
    (h : Ends m s Q E) (he : ∀ e t, ¬E e t) : ∃ a t, m s = .ok a t ∧ Q a t := by
  unfold Ends at h
  split at h
  · exact ⟨_, _, by assumption, h⟩
  · exact absurd h (he _ _)

/-- From every state the computation moves along `R`, gives a value with `V`
and stops early only for reasons in `X`. -/
def Yields (R : σ → σ → Prop) (X : ε → Prop) (V : α → Prop) (m : EStateM ε σ α) : Prop :=
  ∀ s, Ends m s (fun a t => R s t ∧ V a) (fun e t => R s t ∧ X e)

section preorder

variable {R R' : σ → σ → Prop} {X X' : ε → Prop} {V V' : α → Prop} {W : β → Prop}

theorem Yields.mono {m : EStateM ε σ α} (h : Yields R X V m) (hr : ∀ s t, R s t → R' s t)
    (hx : ∀ e, X e → X' e) (hv : ∀ a, V a → V' a) : Yields R' X' V' m := by
  intro s
  exact (h s).mono (fun a t hq => ⟨hr s t hq.1, hv a hq.2⟩) (fun e t he => ⟨hr s t he.1, hx e he.2⟩)

/-- A computation may stop early for a reason that does not matter. -/
theorem Yields.anyhow {m : EStateM ε σ α} (h : Yields R X V m) : Yields R (fun _ => True) V m :=
  h.mono (fun _ _ hr => hr) (fun _ _ => trivial) (fun _ hv => hv)

variable [IsPreorder σ R]

theorem yields_pure {a : α} (h : V a) : Yields R X V (pure a : EStateM ε σ α) :=
  fun s => ⟨refl_of R s, h⟩

theorem yields_throw {e : ε} (h : X e) : Yields R X V (throw e : EStateM ε σ α) :=
  fun s => ⟨refl_of R s, h⟩

theorem yields_get : Yields R X (fun _ => True) (get : EStateM ε σ σ) :=
  fun s => ⟨refl_of R s, trivial⟩

omit [IsPreorder σ R] in
theorem yields_modify {f : σ → σ} (h : ∀ s, R s (f s)) :
    Yields R X (fun _ => True) (modify f : EStateM ε σ PUnit) :=
  fun s => ⟨h s, trivial⟩

theorem yields_bind {m : EStateM ε σ α} {f : α → EStateM ε σ β} (hm : Yields R X V m)
    (hf : ∀ a, V a → Yields R X W (f a)) : Yields R X W (m >>= f) := by
  intro s
  rw [ends_bind]
  refine (hm s).mono ?_ (fun e t he => he)
  intro a t hq
  obtain ⟨hr, hv⟩ := hq
  refine (hf a hv t).mono ?_ ?_
  · intro b u hb
    exact ⟨trans_of R hr hb.1, hb.2⟩
  · intro e u he
    exact ⟨trans_of R hr he.1, he.2⟩

theorem yields_seq {m : EStateM ε σ α} {f : α → EStateM ε σ β}
    (hm : Yields R X (fun _ => True) m) (hf : ∀ a, Yields R X W (f a)) :
    Yields R X W (m >>= f) :=
  yields_bind hm fun a _ => hf a

omit [IsPreorder σ R] in
theorem yields_ite {c : Prop} [Decidable c] {m n : EStateM ε σ α} (hm : c → Yields R X V m)
    (hn : ¬c → Yields R X V n) : Yields R X V (if c then m else n) := by
  split
  · exact hm (by assumption)
  · exact hn (by assumption)

end preorder

/-- `for(i = 0; i < n; i++)` -/
def upTo (body : Nat → EStateM ε σ PUnit) : Nat → EStateM ε σ PUnit
  | 0 => pure ⟨⟩
  | n + 1 => do
    upTo body n
    body n

/-- `while(n) { …; n--; }` -/
def times (body : EStateM ε σ PUnit) : Nat → EStateM ε σ PUnit
  | 0 => pure ⟨⟩
  | n + 1 => do
    body
    times body n

/-- `while(c)` over the locals `b`, observed for at most the given number of passes. -/
def repeatWhile (out : ε) (c : β → Bool) (body : β → EStateM ε σ β) :
    Nat → β → EStateM ε σ β
  | 0, b => if c b then throw out else pure b
  | n + 1, b => do
    if c b then
      let b ← body b
      repeatWhile out c body n b
    else pure b

theorem repeatWhile_done {out : ε} {c : β → Bool} {body : β → EStateM ε σ β} {b : β}
    (h : c b = false) (n : Nat) : repeatWhile out c body n b = pure b := by
  cases n <;> simp only [repeatWhile, h, Bool.false_eq_true, if_false]

section loops

variable {R : σ → σ → Prop} [IsPreorder σ R] {X : ε → Prop}

theorem yields_upTo {body : Nat → EStateM ε σ PUnit} {n : Nat}
    (h : ∀ i, i < n → Yields R X (fun _ => True) (body i)) :
    Yields R X (fun _ => True) (upTo body n) := by
  induction n with
  | zero => exact yields_pure trivial
  | succ n ih =>
    have hn := h n (Nat.lt_succ_self n)
    exact yields_bind (ih fun i hi => h i (Nat.lt_succ_of_lt hi)) fun _ _ => hn

theorem yields_times {body : EStateM ε σ PUnit} (h : Yields R X (fun _ => True) body) (n : Nat) :
    Yields R X (fun _ => True) (times body n) := by
  induction n with
  | zero => exact yields_pure trivial
  | succ n ih => exact yields_bind h fun _ _ => ih

end loops

/-- A loop invariant: what every pass keeps holds when the loop is left, and
when the observation ends inside it. -/
theorem ends_repeatWhile {out : ε} {c : β → Bool} {body : β → EStateM ε σ β}
    {I : β → σ → Prop} {E : ε → σ → Prop}
    (hout : ∀ b s, I b s → E out s)
    (hbody : ∀ b s, I b s → c b = true → Ends (body b) s I E) :
    ∀ n b s, I b s → Ends (repeatWhile out c body n b) s (fun b t => I b t ∧ c b = false) E := by
  intro n
  induction n with
  | zero =>
    intro b s hi
    unfold repeatWhile
    cases hc : c b
    · simpa using ⟨hi, hc⟩
    · simpa using hout b s hi
  | succ n ih =>
    intro b s hi
    unfold repeatWhile
    cases hc : c b
    · simpa using ⟨hi, hc⟩
    · simp only [if_true, ends_bind]
      exact (hbody b s hi hc).mono (fun b t hb => ih b t hb) (fun _ _ he => he)

end Effect
