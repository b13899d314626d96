import Gobbler.Lib.Couple

namespace Effect

variable {ε σ κ κ' α β : Type}

/-- An end whose state was replaced. -/
def mapState (f : σ → σ) : EStateM.Result ε σ α → EStateM.Result ε σ α
  | .ok a s => .ok a (f s)
  | .error e s => .error e (f s)

/-- A computation that neither reads nor changes the part of the state that
`put` replaces. -/
def Ignores (put : κ → σ → σ) (m : EStateM ε σ α) : Prop :=
  ∀ c s, m (put c s) = mapState (put c) (m s)

section rules

variable {put : κ → σ → σ} {m n : EStateM ε σ α} {f : α → EStateM ε σ β}

theorem ignores_pure (a : α) : Ignores put (pure a : EStateM ε σ α) := fun _ _ => rfl

theorem ignores_throw (e : ε) : Ignores put (throw e : EStateM ε σ α) := fun _ _ => rfl

theorem ignores_modify {g : σ → σ} (h : ∀ c s, g (put c s) = put c (g s)) :
    Ignores put (modify g : EStateM ε σ PUnit) := by
  intro c s
  exact congrArg (EStateM.Result.ok _) (h c s)

theorem ignores_bind (hm : Ignores put m) (hf : ∀ a, Ignores put (f a)) :
    Ignores put (m >>= f) := by
  intro c s
  have hc := hm c s
  cases h : m s with
  | ok a t =>
    rw [h] at hc
    rw [bind_ok hc, bind_ok h]
    exact hf a c t
  | error e t =>
    rw [h] at hc
    rw [bind_error hc, bind_error h]
    rfl

/-- The state is read, but not the part of it that does not matter. -/
theorem ignores_get {f : σ → EStateM ε σ β} (h : ∀ c s, f (put c s) = f s)
    (hf : ∀ s, Ignores put (f s)) : Ignores put (get >>= f) := by
  intro c s
  change f (put c s) (put c s) = mapState (put c) (f s s)
  rw [h]
  exact hf s c s

/-- The rule for a read that the computation writes back. -/
theorem ignores_get_at {f : σ → EStateM ε σ β}
    (h : ∀ c s, f (put c s) (put c s) = mapState (put c) (f s s)) : Ignores put (get >>= f) := h

theorem ignores_ite {p : Prop} [Decidable p] (hm : Ignores put m) (hn : Ignores put n) :
    Ignores put (if p then m else n) := by
  split
  · exact hm
  · exact hn

/-- The rule for a read that is checked before it is written back. -/
theorem ignores_get_bind {g : σ → EStateM ε σ α} {k : σ → α → EStateM ε σ β}
    (hread : ∀ c s, g (put c s) = g s) (hg : ∀ s, Ignores put (g s))
    (hk : ∀ c s a t, k (put c s) a (put c t) = mapState (put c) (k s a t)) :
    Ignores put (get >>= fun s => g s >>= k s) := by
  intro c s
  change (g (put c s) >>= k (put c s)) (put c s) = mapState (put c) ((g s >>= k s) s)
  have hc := hg s c s
  rw [hread]
  cases h : g s s with
  | ok a t =>
    rw [h] at hc
    rw [bind_ok hc, bind_ok h]
    exact hk c s a t
  | error e t =>
    rw [h] at hc
    rw [bind_error hc, bind_error h]
    rfl

/-- The rule for a test whose branches write the state back. -/
theorem ignores_get_ite {p : σ → Prop} [DecidablePred p] {m n : σ → EStateM ε σ α}
    (hp : ∀ c s, p (put c s) ↔ p s) (hm : ∀ c s, m (put c s) (put c s) = mapState (put c) (m s s))
    (hn : ∀ c s, n (put c s) (put c s) = mapState (put c) (n s s)) :
    Ignores put (get >>= fun s => if p s then m s else n s) := by
  intro c s
  change (if p (put c s) then m (put c s) else n (put c s)) (put c s) =
    mapState (put c) ((if p s then m s else n s) s)
  by_cases h : p s
  · rw [if_pos h, if_pos ((hp c s).mpr h)]
    exact hm c s
  · rw [if_neg h, if_neg ((not_congr (hp c s)).mpr h)]
    exact hn c s

/-- Two runs that differ in the ignored part end the same way, and differ in it as before. -/
theorem Ignores.both (h : Ignores put m) (c : κ) (s : σ) :
    Both m s m (put c s) (fun a t b u => b = a ∧ u = put c t)
      fun e t e' u => e' = e ∧ u = put c t := by
  have hc := h c s
  unfold Both Ends
  cases hm : m s with
  | ok a t => simp [hc, hm, mapState]
  | error e t => simp [hc, hm, mapState]

/-- What is ignored is left alone. -/
theorem Ignores.keeps (part : σ → κ) (hget : ∀ c s, part (put c s) = c)
    (hput : ∀ s, put (part s) s = s) (h : Ignores put m) (s : σ) :
    Ends m s (fun _ t => part t = part s) fun _ t => part t = part s := by
  have hc := h (part s) s
  rw [hput] at hc
  unfold Ends
  cases hm : m s with
  | ok a t =>
    rw [hm] at hc
    simp only [mapState, EStateM.Result.ok.injEq, true_and] at hc
    exact (congrArg part hc).trans (hget _ _)
  | error e t =>
    rw [hm] at hc
    simp only [mapState, EStateM.Result.error.injEq, true_and] at hc
    exact (congrArg part hc).trans (hget _ _)

/-- What is ignored together with more is ignored. -/
theorem Ignores.less {put' : κ' → σ → σ} (part : σ → κ) (hget : ∀ c s, part (put c s) = c)
    (hput : ∀ s, put (part s) s = s) (h : Ignores put m) (fill : κ' → κ → κ)
    (hfill : ∀ c s, put' c s = put (fill c (part s)) s) : Ignores put' m := by
  intro c s
  have hc := h (fill c (part s)) s
  have hkeep := h.keeps part hget hput s
  rw [hfill, hc]
  unfold Ends at hkeep
  cases hm : m s with
  | ok a t =>
    rw [hm] at hkeep
    simp only [mapState, hfill, hkeep]
  | error e t =>
    rw [hm] at hkeep
    simp only [mapState, hfill, hkeep]

/-- Run from two states that differ in the ignored part, it goes on in step. -/
theorem Ignores.couples (part : σ → κ) (hget : ∀ c s, part (put c s) = c)
    (hput : ∀ s, put (part s) s = s) (P : κ → κ → Prop) (h : Ignores put m) :
    Couples (fun s t => ∃ c, t = put c s ∧ P (part s) c) Eq m m := by
  rintro s _ ⟨c, rfl, hp⟩
  have hkeep := h.keeps part hget hput s
  refine ((h.both c s).and hkeep).mono ?_ ?_
  · intro a t hq
    obtain ⟨hboth, hpart⟩ := hq
    refine hboth.mono ?_ fun _ _ he => he
    rintro b u ⟨rfl, rfl⟩
    exact ⟨rfl, c, rfl, hpart ▸ hp⟩
  · intro e t hq
    obtain ⟨hboth, hpart⟩ := hq
    refine hboth.mono (fun _ _ hv => hv) ?_
    rintro e' u ⟨rfl, rfl⟩
    exact ⟨rfl, c, rfl, hpart ▸ hp⟩

end rules

end Effect
