import Gobbler.Lib.Effect

namespace Effect

variable {ε σ α β ι : Type}

/-- A relation between states, indexed by what was done on the way from one to the other. -/
class Logged (R : List ι → σ → σ → Prop) : Prop where
  refl : ∀ s, R [] s s
  append : ∀ {as bs s t u}, R as s t → R bs t u → R (as ++ bs) s u

/-- From every state the computation comes to its end, having done something with `P`. -/
def Does (R : List ι → σ → σ → Prop) (P : List ι → Prop) (m : EStateM ε σ α) : Prop :=
  ∀ s, Ends m s (fun _ t => ∃ as, P as ∧ R as s t) fun _ _ => False

/-- It does just this. -/
abbrev Performs (R : List ι → σ → σ → Prop) (as : List ι) (m : EStateM ε σ α) : Prop :=
  Does R (· = as) m

section rules

variable {R : List ι → σ → σ → Prop} {P Q W : List ι → Prop} {as bs : List ι}
  {m : EStateM ε σ α} {f : α → EStateM ε σ β}

theorem Performs.ends (h : Performs R as m) (s : σ) :
    Ends m s (fun _ t => R as s t) fun _ _ => False := by
  apply (h s).imp
  rintro _ _ ⟨_, rfl, hr⟩
  exact hr

theorem performs_of_ends (h : ∀ s, Ends m s (fun _ t => R as s t) fun _ _ => False) :
    Performs R as m :=
  fun s => (h s).mono (fun _ _ hr => ⟨as, rfl, hr⟩) fun _ _ he => he

variable [Logged R]

theorem performs_pure (a : α) : Performs R [] (pure a : EStateM ε σ α) :=
  fun s => ⟨[], rfl, Logged.refl s⟩

theorem does_bind (hm : Does R P m) (hf : ∀ a, Does R Q (f a))
    (h : ∀ as bs, P as → Q bs → W (as ++ bs)) : Does R W (m >>= f) := by
  intro s
  apply (hm s).bind
  intro a t hq
  obtain ⟨as, has, hr⟩ := hq
  apply (hf a t).imp
  intro _ u hq
  obtain ⟨bs, hbs, hr'⟩ := hq
  exact ⟨as ++ bs, h as bs has hbs, Logged.append hr hr'⟩

theorem performs_bind (hm : Performs R as m) (hf : ∀ a, Performs R bs (f a)) :
    Performs R (as ++ bs) (m >>= f) := by
  apply does_bind hm hf
  rintro _ _ rfl rfl
  rfl

theorem performs_upTo {body : Nat → EStateM ε σ PUnit} {as : Nat → List ι}
    (h : ∀ i, Performs R (as i) (body i)) (n : Nat) :
    Performs R ((List.range n).flatMap as) (upTo body n) := by
  induction n with
  | zero => exact performs_pure _
  | succ n ih =>
    rw [List.range_succ, List.flatMap_append, List.flatMap_singleton]
    exact performs_bind ih fun _ => h n

theorem performs_times {body : EStateM ε σ PUnit} (h : Performs R as body) (n : Nat) :
    Performs R (List.replicate n as).flatten (times body n) := by
  induction n with
  | zero => exact performs_pure _
  | succ n ih =>
    rw [List.replicate_succ, List.flatten_cons]
    exact performs_bind h fun _ => ih

end rules

end Effect
