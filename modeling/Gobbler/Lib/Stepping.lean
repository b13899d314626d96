import Gobbler.Lib.Effect
import Mathlib.Logic.Function.Iterate

namespace Stepping
open Effect

variable {ε σ τ α β : Type}

/-- A machine that runs a program with early ends, and whose final configurations stay. -/
structure Stepper (ε σ τ : Type) where
  step : τ → τ
  running : τ → Prop
  stop : ε → σ → τ
  out : ε
  stays : ∀ c, running (step c) → running c

/-- From `place` on the machine does what the computation does, unless the
observation of one of its loops is too short: then the machine runs on. -/
def Follows (M : Stepper ε σ τ) (passes : Nat) (place : σ → τ) (m : EStateM ε σ α)
    (next : α → σ → τ) : Prop :=
  ∀ s, Ends m s (fun a t => ∃ n, M.step^[n] (place s) = next a t)
    fun e t => (∃ n, M.step^[n] (place s) = M.stop e t) ∨
      (e = M.out ∧ ∀ n, n ≤ passes → M.running (M.step^[n] (place s)))

/-- One step of the machine is the computation. -/
def Steps (M : Stepper ε σ τ) (place : σ → τ) (m : EStateM ε σ α) (next : α → σ → τ) : Prop :=
  ∀ s, Ends m s (fun a t => M.step (place s) = next a t) fun e t => M.step (place s) = M.stop e t

section rules

variable {M : Stepper ε σ τ} {passes : Nat} {place : σ → τ} {m : EStateM ε σ α}
  {next : α → σ → τ} {f : α → EStateM ε σ β} {next' : β → σ → τ} {V : α → Prop}

theorem Stepper.running_of_iterate (M : Stepper ε σ τ) {c : τ} (n : Nat)
    (h : M.running (M.step^[n] c)) : M.running c := by
  induction n with
  | zero => exact h
  | succ n ih =>
    rw [Function.iterate_succ_apply'] at h
    exact ih (M.stays _ h)

/-- The machine ran up to a configuration from which it runs on. -/
theorem Stepper.runs_on (M : Stepper ε σ τ) {c d : τ} {k : Nat} (hk : M.step^[k] c = d)
    (h : ∀ n, n ≤ passes → M.running (M.step^[n] d)) (n : Nat) (hn : n ≤ passes + k) :
    M.running (M.step^[n] c) := by
  by_cases hle : n ≤ k
  · obtain ⟨j, rfl⟩ := Nat.exists_eq_add_of_le' hle
    apply M.running_of_iterate j
    rw [← Function.iterate_add_apply, hk]
    exact h 0 (Nat.zero_le _)
  · obtain ⟨j, rfl⟩ := Nat.exists_eq_add_of_le' (Nat.le_of_not_le hle)
    rw [Function.iterate_add_apply, hk]
    exact h j (by omega)

theorem Follows.le (h : Follows M passes place m next) {n : Nat} (hn : n ≤ passes) :
    Follows M n place m next := by
  intro s
  refine (h s).mono (fun _ _ hq => hq) fun e t he => ?_
  rcases he with hstop | ⟨hout, hrun⟩
  · exact .inl hstop
  · exact .inr ⟨hout, fun k hk => hrun k (Nat.le_trans hk hn)⟩

theorem follows_pure {a : α} (h : ∀ s, next a s = place s) :
    Follows M passes place (pure a : EStateM ε σ α) next := fun s => ⟨0, (h s).symm⟩

theorem follows_throw {e : ε} (h : ∀ s, M.stop e s = place s) :
    Follows M passes place (throw e : EStateM ε σ α) next := fun s => .inl ⟨0, (h s).symm⟩

/-- The rule of sequence, which counts the steps of the first part. -/
theorem follows_of_ends {k : Nat}
    (hm : ∀ s, Ends m s (fun a t => V a ∧ ∃ n, k ≤ n ∧ M.step^[n] (place s) = next a t)
      fun e t => (∃ n, M.step^[n] (place s) = M.stop e t) ∨
        (e = M.out ∧ ∀ n, n ≤ passes + k → M.running (M.step^[n] (place s))))
    (hf : ∀ a, V a → Follows M passes (next a) (f a) next') :
    Follows M (passes + k) place (m >>= f) next' := by
  intro s
  apply (hm s).bind
  rintro a t ⟨hv, n, hk, hn⟩
  refine (hf a hv t).mono ?_ ?_
  · rintro b u ⟨j, hj⟩
    exact ⟨j + n, by rw [Function.iterate_add_apply, hn, hj]⟩
  · rintro e u (⟨j, hj⟩ | ⟨hout, hrun⟩)
    · exact .inl ⟨j + n, by rw [Function.iterate_add_apply, hn, hj]⟩
    · exact .inr ⟨hout, fun i hi => M.runs_on hn hrun i (by omega)⟩

theorem Follows.bind (hm : Follows M passes place m next)
    (hv : ∀ s, Ends m s (fun a _ => V a) fun _ _ => True)
    (hf : ∀ a, V a → Follows M passes (next a) (f a) next') :
    Follows M passes place (m >>= f) next' :=
  follows_of_ends (k := 0) (fun s => ((hv s).and (hm s)).mono
    (fun _ _ hq => ⟨hq.1, hq.2.imp fun n hn => ⟨Nat.zero_le n, hn⟩⟩) fun _ _ hq => hq.2) hf

/-- After a step of the machine the observation may be one pass longer. -/
theorem Steps.bind (hm : Steps M place m next) (hf : ∀ a, Follows M passes (next a) (f a) next') :
    Follows M (passes + 1) place (m >>= f) next' :=
  follows_of_ends (V := fun _ => True) (k := 1)
    (fun s => (hm s).mono (fun _ _ hq => ⟨trivial, 1, Nat.le_refl 1, hq⟩) fun _ _ hq => .inl ⟨1, hq⟩)
    fun a _ => hf a

/-- A loop, each pass of which is a step of the machine. -/
theorem follows_repeatWhile {c : β → Bool} {body : β → EStateM ε σ β} {loop : β → σ → τ}
    (hrun : ∀ b s, M.running (loop b s))
    (hbody : ∀ b, c b = true → Steps M (loop b) (body b) loop) (b : β) :
    Follows M passes (loop b) (repeatWhile M.out c body passes b) loop := by
  induction passes generalizing b with
  | zero =>
    intro s
    unfold repeatWhile
    rw [ends_ite]
    refine ⟨fun _ => .inr ⟨rfl, fun n hn => ?_⟩, fun _ => ⟨0, rfl⟩⟩
    obtain rfl := Nat.le_zero.mp hn
    exact hrun b s
  | succ passes ih =>
    unfold repeatWhile
    split
    · exact (hbody b (by assumption)).bind ih
    · exact follows_pure fun _ => rfl

end rules

theorem repeatWhile_left {out : ε} {c : β → Bool} {body : β → EStateM ε σ β} (n : Nat) (b : β)
    (s : σ) : Ends (repeatWhile out c body n b) s (fun b _ => c b = false) fun _ _ => True := by
  have hloop : Ends (repeatWhile out c body n b) s (fun b _ => True ∧ c b = false) fun _ _ => True :=
    ends_repeatWhile (I := fun _ _ => True) (E := fun _ _ => True) (fun _ _ _ => trivial)
      (fun b s _ _ => by unfold Ends; split <;> trivial) n b s trivial
  exact hloop.imp fun _ _ hq => hq.2

end Stepping
