import Gobbler.Proofs.Attempts

namespace Gobbler.Proofs
open Effect Draws

variable {γ : Type} {w : World γ} {first last range limit b x : Nat}

/-- A machine whose generator starts the same stream anew at each seed. -/
def streamWorld (vs : Nat → Nat) (h : ∀ k, vs k ≤ randMax) : World Nat :=
  drawingWorld (fun _ _ => 0) (reading vs) h plainWorld.cpu

theorem streamWorld_sequence {vs : Nat → Nat} (h : ∀ k, vs k ≤ randMax) (g seed : Nat) :
    sequence (streamWorld vs h) g seed = vs := by
  funext k
  exact (outputs_reading vs 0 k).trans (congrArg vs (Nat.zero_add k))

/-- The draws that land on a bucket of `rand_intr`, and not off the end of the line. -/
def Lands (range v : Nat) : Prop := v < randMax - randMax % range

instance (range : Nat) : DecidablePred (Lands range) := fun v =>
  inferInstanceAs (Decidable (v < randMax - randMax % range))

/-- The position that a draw hits in its bucket, counted from `first`. -/
def position (first range v : Nat) : Nat := v % range + first

/-- The loop keeps the draw of `g`, or one of the `upper` next. -/
theorem randIntrLoop_settles (limit upper randVal : Nat) (g : γ) (s : St γ)
    (hg : w.rand g = (randVal, s.gen)) :
    Ends (randIntrLoop w limit upper randVal) s
      (fun v t => ∃ k, SettlesAt (· < limit) (outputs w.rand g) upper k ∧
        v = outputs w.rand g k ∧ t = { s with gen := after w.rand g (k + 1) })
      fun _ _ => False := by
  have hfirst : outputs w.rand g 0 = randVal := congrArg Prod.fst hg
  have hgen : after w.rand g 1 = s.gen := congrArg Prod.snd hg
  induction upper generalizing randVal g s with
  | zero => exact ⟨0, settlesAt_cap, hfirst.symm, by rw [hgen]⟩
  | succ upper ih =>
    unfold randIntrLoop rand
    rw [ends_ite]
    constructor
    · intro hout
      have hnot : ¬outputs w.rand g 0 < limit := by omega
      simp only [ends_bind, ends_get, ends_set, ends_pure]
      apply (ih _ s.gen _ rfl rfl rfl).imp
      intro v t hq
      obtain ⟨k, hk, hv, ht⟩ := hq
      rw [← hgen] at hk hv ht
      exact ⟨k + 1, hk.succ hnot, hv, ht⟩
    · intro hin
      have hlands : outputs w.rand g 0 < limit := by omega
      exact ⟨0, settlesAt_zero hlands, hfirst.symm, by rw [hgen]⟩

/-- The limit of `rand_intr` is the last whole line of buckets. -/
theorem lands_iff (range v : Nat) : Lands range v ↔ v < randMax / range * range := by
  have hsplit := Nat.div_add_mod' randMax range
  unfold Lands
  omega

/-- A call moves the clock and the generator, and the generator by at most 129 draws. -/
theorem randIntr_settles (hle : first ≤ last) (hl : last < 2 ^ 64)
    (hr : wrap (wrapSub last first + 1) ≠ 0) (s : St γ) :
    Ends (randIntr w first last) s
      (fun v t => ∃ k, SettlesAt (Lands (last - first + 1))
          (sequence w s.gen (seedAt w s.cpuReads)) 128 k ∧
        v = position first (last - first + 1) (sequence w s.gen (seedAt w s.cpuReads) k) ∧
        t = { s with
          calls := .randIntr first last :: s.calls
          cpuReads := s.cpuReads + 1
          gen := after w.rand (w.srand (seedAt w s.cpuReads) s.gen) (k + 1) })
      fun _ _ => False := by
  have hrange : wrap (wrapSub last first + 1) = last - first + 1 := by
    simp only [wrap, wrapSub] at hr ⊢
    omega
  unfold randIntr note defined
  rw [hrange] at hr ⊢
  simp only [ends_bind, ends_modify, if_pos hr, ends_pure]
  apply (reseed_ends _).imp
  rintro _ t rfl
  unfold rand
  simp only [ends_bind, ends_get, ends_set, ends_pure]
  apply (randIntrLoop_settles _ 128 _ (w.srand (seedAt w s.cpuReads) s.gen) _ rfl).imp
  rintro v t ⟨k, hk, rfl, rfl⟩
  refine ⟨k, hk, ?_, rfl⟩
  have hin : outputs w.rand (w.srand (seedAt w s.cpuReads) s.gen) k % (last - first + 1) <
      last - first + 1 := Nat.mod_lt _ (Nat.succ_pos _)
  exact wrap_of_lt (by omega)

theorem position_eq_iff (hx : first ≤ x) (v : Nat) :
    position first range v = x ↔ v % range = x - first := by
  unfold position
  omega

/-- Each number of the interval is hit by as many draws, from one in each line of buckets. -/
theorem randIntr_hits (hx : first ≤ x) (hx' : x - first < range) :
    hits (Lands range) (position first range) (randMax + 1) x = randMax / range := by
  have hfit : randMax / range * range ≤ randMax + 1 :=
    Nat.le_succ_of_le (Nat.div_mul_le_self randMax range)
  rw [← hits_mod hx' hfit]
  apply hits_congr
  intro v
  rw [lands_iff, position_eq_iff hx]

/-- `rand_intr` comes back after 129 draws at the latest, within its two ends, and
without a preference among them. -/
theorem randIntr_draws (first last : Nat) (hle : first ≤ last) (hl : last < 2 ^ 64)
    (hr : wrap (wrapSub last first + 1) ≠ 0) (s : St γ) :
    let range := last - first + 1
    let seed := seedAt w s.cpuReads
    (∃ k, SettlesAt (Lands range) (sequence w s.gen seed) 128 k ∧ k + 1 ≤ 129 ∧
      let v := position first range (sequence w s.gen seed k)
      randIntr w first last s = .ok v { s with
        calls := .randIntr first last :: s.calls
        cpuReads := s.cpuReads + 1
        gen := after w.rand (w.srand seed s.gen) (k + 1) } ∧ first ≤ v ∧ v ≤ last) ∧
    (∀ x, first ≤ x → x ≤ last →
      hits (Lands range) (position first range) (randMax + 1) x = randMax / range) ∧
    (randMax < range → ∀ v, ¬Lands range v) := by
  intro range seed
  refine ⟨?_, ?_, ?_⟩
  · obtain ⟨_, _, hcall, k, hk, rfl, rfl⟩ :=
      (randIntr_settles hle hl hr s).returns fun _ _ he => he
    have hin : sequence w s.gen seed k % range < range := Nat.mod_lt _ (Nat.succ_pos _)
    refine ⟨k, hk, Nat.succ_le_succ hk.le_cap, hcall, Nat.le_add_left _ _, ?_⟩
    simp only [position, range] at hin ⊢
    omega
  · intro x hx hx'
    exact randIntr_hits hx (by omega)
  · intro hlt v hv
    rw [lands_iff, Nat.div_eq_of_lt hlt, Nat.zero_mul] at hv
    exact Nat.not_lt_zero v hv

/-- When no draw lands, the call folds the last of its 129. -/
theorem randIntr_draws_rejected :
    let w := streamWorld (fun _ => randMax) fun _ => Nat.le_refl randMax
    let s : St Nat := initial smallTable (fun _ => 0) 0
    (∃ t, randIntr w 5 7 s = .ok 6 t ∧ t.gen = 129) ∧
      hits (Lands 3) (position 5 3) (randMax + 1) 6 = 715827882 := by
  intro w s
  have hwrap : wrap (wrapSub 7 5 + 1) ≠ 0 := by
    simp only [wrap, wrapSub]
    decide
  obtain ⟨⟨k, hk, _, hcall, _⟩, hhits, _⟩ :=
    randIntr_draws (w := w) 5 7 (by decide) (by decide) hwrap s
  have hlast : k = 128 := by
    rw [streamWorld_sequence] at hk
    have hout : ¬Lands 3 randMax := by decide
    exact hk.1.resolve_left hout
  rw [streamWorld_sequence] at hcall
  refine ⟨⟨_, hcall, ?_⟩, hhits 6 (by decide) (by decide)⟩
  change after (reading fun _ => randMax) 0 (k + 1) = 129
  rw [after_reading, hlast]

/-- Each number below the limit is hit by a whole bucket of draws. -/
theorem randLim_hits (hr : limit < randMax) (hb : b < limit) :
    hits (Accepted limit) (bucket limit) (randMax + 1) b = randMax / (limit + 1) := by
  have hpos : 0 < randMax / (limit + 1) := Nat.div_pos (by omega) (Nat.succ_pos limit)
  have hfit : limit * (randMax / (limit + 1)) ≤ randMax + 1 := by
    have hall := Nat.mul_div_le randMax (limit + 1)
    rw [Nat.succ_mul] at hall
    omega
  exact hits_div hpos hb hfit

/-- What a call returns is fixed by the draws after its seed. -/
theorem randLim_ends (hl : 1 ≤ limit) (hr : limit < randMax) (patience : Nat) (s : St γ) :
    Ends (randLim (observed w patience) limit) s
      (fun v _ => (0 ≤ v ∧ v < limit) ∧
        ∃ k, StopsAt (Accepted limit) (sequence w s.gen (seedAt w s.cpuReads)) k ∧
          v = bucket limit (sequence w s.gen (seedAt w s.cpuReads) k))
      fun e _ => e = .spinning ∧
        ∀ k, k < patience → ¬Accepted limit (sequence w s.gen (seedAt w s.cpuReads) k) := by
  have hl' : (1 : Int) ≤ limit := by omega
  have hr' : (limit : Int) < randMax := by omega
  apply ((randLim_spins hl' hr' s).and (randLim_stops hl hr s)).mono
  · intro v _ hq
    obtain ⟨⟨_, hin⟩, _, k, _, hstop, hv⟩ := hq
    exact ⟨hin, k, hstop, hv⟩
  · intro _ _ hq
    obtain ⟨⟨_, hspinning⟩, hnone⟩ := hq
    exact ⟨hspinning, hnone⟩

/-- `rand_lim` divides by a positive number, returns the bucket of the first draw that
it accepts, and accepts as many for each number below its limit. -/
theorem randLim_draws (limit : Nat) (hl : 1 ≤ limit) (hr : limit < randMax) (s : St γ) :
    let draws := sequence w s.gen (seedAt w s.cpuReads)
    (randMax : Int).tdiv (limit + 1) ≠ 0 ∧
    (∀ patience, Ends (randLim (observed w patience) limit) s
      (fun v _ => (0 ≤ v ∧ v < limit) ∧
        ∃ k, StopsAt (Accepted limit) draws k ∧ v = bucket limit (draws k))
      fun e _ => e = .spinning ∧ ∀ k, k < patience → ¬Accepted limit (draws k)) ∧
    (∀ k, StopsAt (Accepted limit) draws k →
      ∃ patience t, randLim (observed w patience) limit s = .ok (bucket limit (draws k)) t) ∧
    ∀ b, b < limit →
      hits (Accepted limit) (bucket limit) (randMax + 1) b = randMax / (limit + 1) := by
  intro draws
  refine ⟨(randLim_divisor (by omega) (by omega)).ne', fun patience => randLim_ends hl hr patience s,
    fun k hk => ?_, fun b hb => randLim_hits hr hb⟩
  obtain ⟨_, t, hcall, _, k', hk', rfl⟩ :=
    (randLim_ends (w := w) hl hr (k + 1) s).returns fun _ _ he => he.2 k (Nat.lt_succ_self k) hk.1
  rw [hk.unique hk']
  exact ⟨k + 1, t, hcall⟩

/-- A draw in the bucket of the limit is rejected, the next one is not. -/
theorem randLim_draws_second :
    let draws := fun k => randMax / (k + 1)
    let w := streamWorld draws fun k => Nat.div_le_self randMax (k + 1)
    let s : St Nat := initial smallTable (fun _ => 0) 0
    (∃ patience t, randLim (observed w patience) 2 s = .ok 1 t) ∧
      hits (Accepted 2) (bucket 2) (randMax + 1) 1 = 715827882 := by
  intro draws w s
  obtain ⟨_, _, hcall, hhits⟩ := randLim_draws (w := w) 2 (by decide) (by decide) s
  have hstop : StopsAt (Accepted 2) (sequence w s.gen (seedAt w s.cpuReads)) 1 := by
    rw [streamWorld_sequence]
    have hout : ¬Accepted 2 (draws 0) := by decide
    have hin : Accepted 2 (draws 1) := by decide
    exact StopsAt.succ hout (stopsAt_zero hin)
  have hbucket : bucket 2 (draws 1) = 1 := by decide
  have hfirst := hcall 1 hstop
  rw [streamWorld_sequence, hbucket] at hfirst
  exact ⟨hfirst, hhits 1 (by decide)⟩

end Gobbler.Proofs
