import Gobbler.Proofs.Phases

namespace Gobbler.Proofs
open Effect

variable {γ : Type} {w : World γ} {table : FileTable} {opts : List Opt} {mem : Nat → UInt8}
  {gen : γ} {b : Book}

/-- Between a reading of the wall clock and the next more than `execTime` went by. -/
def LateAt (w : World γ) (t : Granularity) (execTime : ℚ) (reading : Nat) : Prop :=
  wallTime w t reading + execTime < wallTime w t (reading + 1)

/-- A call of `job`, with the readings it compares. -/
structure CalledAt (w : World γ) (t : Granularity) (reading : Nat) (jobs : List JobCall)
    (late : Prop) (c : JobCall) (jobs' : List JobCall) : Prop where
  jobs : jobs' = c :: jobs
  late : late ↔ LateAt w t c.execTime reading

/-- `job` returns to `main` at once just when it is late. -/
theorem job_late (e : ℚ) (t : Granularity) (s : St γ) :
    Ends (job w e t) s
      (fun pc u => ∃ c, CalledAt w t s.wallReads s.jobs (pc = .main) c u.jobs)
      (fun _ u => ∃ c, CalledAt w t s.wallReads s.jobs False c u.jobs) := by
  unfold job
  rw [ends_bind, ends_modify, ends_bind]
  refine (wctime_ends _ _).mono ?_ fun _ _ h => h.elim
  rintro now _ ⟨rfl, rfl⟩
  rw [ends_bind]
  refine (wctime_ends _ _).mono ?_ fun _ _ h => h.elim
  rintro now' _ ⟨rfl, rfl⟩
  rw [ends_ite]
  refine ⟨fun hlate => ?_, fun hlate => ?_⟩
  · simp only [ends_bind, ends_modify, ends_pure]
    refine (wctime_ends _ _).mono ?_ fun _ _ h => h.elim
    rintro _ _ ⟨_, rfl⟩
    exact ⟨_, rfl, ⟨fun _ => hlate, fun _ => trivial⟩⟩
  · simp only [ends_bind, ends_get]
    rw [ends_ite]
    refine ⟨fun _ => ?_, fun _ => ?_⟩
    · refine (jobHold_ends _ _ _).mono ?_ ?_
      · rintro pc u ⟨_, hbook, _, _, _, rfl⟩
        exact ⟨_, congrArg Book.jobs hbook, iff_of_false (by simp) hlate⟩
      · intro h u hq
        obtain ⟨_, hbook, _, _⟩ := hq
        exact ⟨_, congrArg Book.jobs hbook, iff_of_false id hlate⟩
    · rw [ends_bind]
      refine (transRandAllocEnter_ends _).mono ?_ ?_
      · intro l u hq
        obtain ⟨_, _, _, hbook⟩ := hq
        exact ⟨_, congrArg Book.jobs hbook, iff_of_false (by simp) hlate⟩
      · intro h u hq
        obtain ⟨_, hbook, _⟩ := hq
        exact ⟨_, congrArg Book.jobs hbook, iff_of_false id hlate⟩

/-- The reading of the wall clock that `job` takes first: a row takes one as well. -/
def firstReading (s : St γ) : Nat := s.wallReads + if s.verbose then 1 else 0

theorem nextLocality_late (s : St γ) :
    Ends nextLocality s
      (fun _ t => t.jobs = s.jobs ∧ t.timeG = s.timeG ∧ firstReading t = firstReading s)
      (fun _ t => t.jobs = s.jobs) := by
  unfold nextLocality
  simp only [ends_bind, ends_get]
  rw [ends_ite]
  refine ⟨fun _ => ?_, fun _ => ⟨rfl, rfl, rfl⟩⟩
  rw [ends_bind]
  refine (getNxtAlloc_ends s.ipfvt s).mono ?_ ?_
  · rintro r t (⟨rfl, rfl, _⟩ | ⟨line, p, ⟨rest, _, rfl⟩, _, rfl⟩)
    · exact ⟨rfl, rfl, rfl⟩
    · exact ⟨rfl, rfl, rfl⟩
  · rintro h t ⟨_, line, ⟨rest, _, rfl⟩, _⟩
    rfl

theorem report_late (s : St γ) :
    Ends (report w) s
      (fun _ t => t.jobs = s.jobs ∧ t.timeG = s.timeG ∧ t.wallReads = firstReading s)
      (fun _ _ => False) := by
  unfold report firstReading
  simp only [ends_bind, ends_get]
  rw [ends_ite]
  refine ⟨fun hv => ?_, fun hv => ?_⟩
  · rw [if_pos hv]
    exact ⟨rfl, rfl, rfl⟩
  · rw [if_neg hv]
    exact ⟨rfl, rfl, rfl⟩

theorem limits_late (s : St γ) :
    Ends (limits w) s
      (fun pc u => u.jobs = s.jobs ∨
        ∃ c, CalledAt w s.timeG s.wallReads s.jobs (pc = .main) c u.jobs)
      (fun _ u => u.jobs = s.jobs ∨
        ∃ c, CalledAt w s.timeG s.wallReads s.jobs False c u.jobs) := by
  unfold limits
  rw [ends_bind, ends_modify, ends_bind]
  refine (curJobSucc_ends _).mono ?_ ?_
  · rintro _ _ ⟨_, rfl⟩
    rw [ends_bind, ends_get, ends_ite]
    refine ⟨fun _ => .inl rfl, fun _ => ?_⟩
    exact (job_late _ _ _).mono (fun _ _ h => .inr h) fun _ _ h => .inr h
  · rintro _ _ ⟨_, _, rfl⟩
    exact .inl rfl

theorem mainPass_late (s : St γ) :
    Ends (mainPass w) s
      (fun pc u => u.jobs = s.jobs ∨
        ∃ c, CalledAt w s.timeG (firstReading s) s.jobs (pc = .main) c u.jobs)
      (fun _ u => u.jobs = s.jobs ∨
        ∃ c, CalledAt w s.timeG (firstReading s) s.jobs False c u.jobs) := by
  unfold mainPass
  rw [ends_bind]
  refine (nextLocality_late s).mono ?_ fun _ _ h => .inl h
  intro go t hq
  obtain ⟨hjobs, htime, hfirst⟩ := hq
  rw [ends_ite]
  refine ⟨fun _ => ?_, fun _ => .inl hjobs⟩
  rw [ends_bind]
  refine (report_late t).mono ?_ fun _ _ h => h.elim
  intro _ u hq
  obtain ⟨hjobs', htime', hreads⟩ := hq
  have hlimits := limits_late (w := w) u
  rw [hjobs', hjobs, htime', htime, hreads, hfirst] at hlimits
  exact hlimits.mono (fun _ _ h => h) fun _ _ h => h

/-- `job` is called, and skips its locality just when it is late. -/
theorem step_late {m : Machine γ} {c : JobCall} (hpc : m.pc = .main)
    (hcall : (step w m).st.jobs = c :: m.st.jobs) :
    (step w m).pc = .main ↔ LateAt w m.st.timeG c.execTime (firstReading m.st) := by
  have hlate : ∀ {jobs : List JobCall} {p : Prop}, jobs = c :: m.st.jobs →
      (jobs = m.st.jobs ∨ ∃ c', CalledAt w m.st.timeG (firstReading m.st) m.st.jobs p c' jobs) →
      (p ↔ LateAt w m.st.timeG c.execTime (firstReading m.st)) := by
    rintro _ p rfl (hsame | ⟨c', hc⟩)
    · exact absurd hsame (List.cons_ne_self _ _)
    · obtain ⟨rfl, _⟩ := List.cons.inj hc.jobs
      exact hc.late
  refine step_of_ends (P := fun m' => m'.st.jobs = c :: m.st.jobs →
    (m'.pc = .main ↔ LateAt w m.st.timeG c.execTime (firstReading m.st))) ?_ hcall
  rw [hpc]
  refine (mainPass_late m.st).mono (fun pc u h hu => hlate hu h) fun e u h hu => ?_
  rw [← hlate hu h]
  exact ⟨nofun, nofun⟩

/-- What a turn of `main` that calls `job` can do. -/
theorem Move.of_call {b' : Book} {pc : Pc} {c : JobCall} (h : Move w ⟨b, .main⟩ ⟨b', pc⟩)
    (hcall : b'.jobs = c :: b.jobs) :
    (pc = .main ∧ b'.toLedger = b.toLedger ∧ b'.skipped = b.skipped + 1) ∨
      (∃ t l, pc = .trans c.execTime t l ∧ b'.curr = b.curr + 1) ∨
      ∃ x, pc = .stopped x ∧ x ≠ .returned := by
  cases h with
  | idle hi => cases hi <;> exact absurd hcall (List.cons_ne_self _ _).symm
  | finish located _ | overrun located _ =>
    exact absurd (located.jobs.1.symm.trans hcall) (List.cons_ne_self _ _).symm
  | skip located _ _ =>
    exact .inl ⟨rfl, located.ledger, congrArg (· + 1) located.jobs.2⟩
  | enter located _ _ _ =>
    have hcurr := congrArg Ledger.curr located.ledger
    obtain ⟨rfl, _⟩ := List.cons.inj hcall
    exact .inr (.inl ⟨_, _, rfl, congrArg (· + 1) hcurr⟩)
  | enterHalt _ _ why =>
    refine .inr (.inr ⟨_, rfl, ?_⟩)
    rintro rfl
    rcases why with hf | ⟨hh, _⟩
    · cases hf
    · cases hh

/-- A call of `job` opens one phase, and its transition leads to the holding
state of that phase, unless an error ends the program. -/
def Performed (execTime : ℚ) (m : Nat → Machine γ) : Prop :=
  ∃ k, (∀ j, j < k →
      inTransition (m (j + 1)).pc = true ∧ (m (j + 1)).st.curr = (m 0).st.curr + 1) ∧
    ((∃ l, (m (k + 1)).pc = .hold l ∧ l.execTime = execTime ∧
        (m (k + 1)).st.curr = (m 0).st.curr + 1) ∨
      ∃ h, (m (k + 1)).pc = .stopped h ∧ h ≠ .returned)

theorem performed_of_trans {n : Nat} {e : ℚ} {t : Granularity} {l : TransLocals}
    (hpc : (run w table opts mem gen (n + 1)).pc = .trans e t l)
    (hcurr : (run w table opts mem gen (n + 1)).st.curr = (run w table opts mem gen n).st.curr + 1) :
    Performed e fun k => run w table opts mem gen (n + k) := by
  obtain ⟨m, hin, hend⟩ := transition_ends hpc
  have hkept : ∀ j, j ≤ m → (run w table opts mem gen (n + 1 + j)).st.curr =
      (run w table opts mem gen n).st.curr + 1 := by
    intro j hj
    have happ := transition_appends j fun i hi => hin i (Nat.le_trans (Nat.le_of_lt hi) hj)
    exact happ.1.trans hcurr
  refine ⟨m + 1, fun j hj => ?_, ?_⟩
  · have hj' : j ≤ m := Nat.le_of_lt_succ hj
    change inTransition (run w table opts mem gen (n + (j + 1))).pc = true ∧
      (run w table opts mem gen (n + (j + 1))).st.curr = (run w table opts mem gen n).st.curr + 1
    rw [Nat.add_comm j 1, ← Nat.add_assoc]
    exact ⟨hin j hj', hkept j hj'⟩
  · have hlast := hkept m (Nat.le_refl m)
    rw [Nat.add_right_comm n 1 m] at hend hlast
    rcases hend with ⟨a, i, hhold, hleft⟩ | hstop
    · refine .inl ⟨_, hhold, rfl, ?_⟩
      have hsame := congrArg (fun b : Book => b.curr) hleft
      exact hsame.trans hlast
    · exact .inr hstop

end Gobbler.Proofs
