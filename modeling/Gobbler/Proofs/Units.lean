import Gobbler.Proofs.Holding

namespace Gobbler.Proofs
open Effect

variable {γ : Type} {w : World γ} {table : FileTable} {opts : List Opt} {mem : Nat → UInt8}
  {gen : γ}

/-- The clocks are read in seconds, by `main` and in its transitions. -/
structure InSeconds (v : View) : Prop where
  booting : ∀ opts, v.pc = .boot opts → Opt.I ∉ opts
  unit : halted v.pc = none → v.book.timeG = .secs
  trans : ∀ e t l, v.pc = .trans e t l → t = .secs

theorem unitSet_seconds {opts : List Opt} (h : Opt.I ∉ opts) : opts.foldl unitSet .secs = .secs := by
  induction opts with
  | nil => rfl
  | cons o os ih =>
    obtain ⟨ho, hos⟩ := not_or.mp (mt List.mem_cons.mpr h)
    have hone : unitSet .secs o = .secs := by
      cases o <;> first | rfl | exact absurd rfl ho
    rw [List.foldl_cons, hone]
    exact ih hos

theorem Located.unit {b b' : Book} (h : Located b b') : b'.timeG = b.timeG := by
  obtain ⟨_, _ | _⟩ := h <;> rfl

theorem InSeconds.move {v v' : View} (h : InSeconds v) (hm : Move w v v') : InSeconds v' := by
  have hboot : ∀ os, v'.pc = .boot os → Opt.I ∉ os := fun os ho => absurd ho (hm.booted os)
  refine ⟨hboot, fun hrun => ?_, ?_⟩
  · have hunit := h.unit (hm.running hrun)
    cases hm with
    | boot _ _ next started =>
      rcases next with rfl | ⟨_, rfl, _⟩
      · rw [(started rfl).unit, hunit]
        exact unitSet_seconds (h.booting _ rfl)
      · cases hrun
    | idle hi => cases hi <;> exact hunit
    | finish located _ | overrun located _ | skip located _ _ | enterHalt located _ _ | enter located _ _ _ =>
      exact located.unit.trans hunit
    | request | trouble | aborted => exact hunit
  · intro e t l hpc
    cases hm with
    | boot _ _ next _ => rcases next with rfl | ⟨_, rfl, _⟩ <;> cases hpc
    | idle hi => cases hi <;> cases hpc
    | finish | overrun | skip | enterHalt | trouble | aborted => cases hpc
    | enter located _ _ _ =>
      cases hpc
      exact located.unit.trans (h.unit rfl)
    | request =>
      cases hpc
      exact h.trans _ _ _ rfl

theorem run_inSeconds (hI : Opt.I ∉ opts) (n : Nat) :
    InSeconds (view (run w table opts mem gen n)) := by
  refine run_invariant w table opts mem gen ?_ (fun _ _ _ _ h hm => h.move hm) n
  refine ⟨?_, fun _ => rfl, fun _ _ _ hpc => by cases hpc⟩
  intro os ho
  cases ho
  exact hI

/-- The step that begins a holding state ends in `loop_for`'s first reading. -/
theorem step_enters {m : Machine γ} {e : ℚ} {t : Granularity} {l : TransLocals} {l' : HoldLocals}
    (hpc : m.pc = .trans e t l) (hhold : (step w m).pc = .hold l') :
    ∃ s, loopForEnter w e t s = .ok l' (step w m).st := by
  have hany : ∀ {α : Type} (p : M γ α) (s : St γ), Ends p s (fun a u => p s = .ok a u) fun _ _ => True := by
    intro α p s
    unfold Ends
    split <;> simp_all
  refine step_of_ends (m := m) (P := fun m' => ∀ l', m'.pc = .hold l' →
    ∃ s, loopForEnter w e t s = .ok l' m'.st) ?_ l' hhold
  rw [hpc]
  unfold turn
  rw [ends_ite]
  refine ⟨fun _ => ?_, fun _ => ?_⟩
  · rw [ends_bind]
    refine (hany _ _).mono (fun _ _ _ => ?_) fun _ _ _ => ?_
    · exact fun _ h => by cases h
    · exact fun _ h => by cases h
  · rw [ends_bind]
    refine (hany _ _).mono (fun _ u _ => ?_) fun _ _ _ => fun _ h => by cases h
    unfold jobHold
    rw [ends_bind]
    refine (hany _ _).mono (fun _ v _ => ?_) fun _ _ _ => fun _ h => by cases h
    rw [ends_bind]
    refine (hany _ _).mono (fun _ x hx => ?_) fun _ _ _ => fun _ h => by cases h
    intro l'' hl
    cases hl
    exact ⟨v, hx⟩

/-- The nanoseconds from one reading of a clock to another. -/
def elapsed (a b : Timespec) : ℚ :=
  ((b.sec : ℚ) - a.sec) * 10 ^ 9 + ((b.nsec : ℚ) - a.nsec)

/-- The reading of the CPU clock that `m` took last. -/
def cpuReading (w : World γ) (m : Machine γ) : Timespec := w.cpu (m.st.cpuReads - 1)

/-- A holding state, observed turn by turn, that ends at the first reading at
which `execTime` milliseconds have gone by, up to one millisecond. -/
def HeldOnTime (w : World γ) (execTime : ℚ) (m : Nat → Machine γ) : Prop :=
  ∀ k, (∀ j, j ≤ k → inHolding (m j).pc = true) →
    ((m (k + 1)).pc = .main →
      (execTime - 1) * 10 ^ 6 ≤ elapsed (cpuReading w (m 0)) (cpuReading w (m k))) ∧
    ((m (k + 1)).pc ≠ .main →
      elapsed (cpuReading w (m 0)) (cpuReading w (m k)) < (execTime + 1) * 10 ^ 6)

/-- As many whole seconds as `execTime` has milliseconds are long enough. -/
theorem elapsed_of_seconds {a b : Timespec} {execTime : ℚ} (he : 1 ≤ execTime)
    (hs : execTime ≤ (b.sec : ℚ) - a.sec) : (execTime - 1) * 10 ^ 6 ≤ elapsed a b := by
  have ha : (a.nsec : ℚ) ≤ 999999999 := by exact_mod_cast Nat.le_of_lt_succ a.nsec_lt
  have hb : (0 : ℚ) ≤ b.nsec := Nat.cast_nonneg _
  unfold elapsed
  linarith

/-- Without `-I` a holding state counts whole seconds. It is on time just when
no reading taken before `execTime` seconds is later than `execTime + 1` milliseconds. -/
theorem holding_time_unit (w : World γ) (hsec : ∀ n, (w.cpu n).sec < 2 ^ 63) (table : FileTable)
    (opts : List Opt) (hI : Opt.I ∉ opts) (mem : Nat → UInt8) (gen : γ) (n : Nat)
    (e : ℚ) (t : Granularity) (l : TransLocals) (l' : HoldLocals)
    (htrans : (run w table opts mem gen n).pc = .trans e t l)
    (hhold : (run w table opts mem gen (n + 1)).pc = .hold l') (he : 1 ≤ e) :
    let m := fun k => run w table opts mem gen (n + 1 + k)
    HeldOnTime w e m ↔ ∀ k, (∀ j, j ≤ k → inHolding (m j).pc = true) →
      ((cpuReading w (m k)).sec : ℚ) - (cpuReading w (m 0)).sec < e →
      elapsed (cpuReading w (m 0)) (cpuReading w (m k)) < (e + 1) * 10 ^ 6 := by
  intro m
  have hunit : t = .secs := (run_inSeconds hI n).trans e t l htrans
  subst hunit
  have henter := step_enters (w := w) htrans (run_succ w table opts mem gen n ▸ hhold)
  rw [← run_succ] at henter
  obtain ⟨s, hs⟩ := henter
  have hstart := looping_start hs
  have hm : ∀ k, (step w)^[k] ⟨(run w table opts mem gen (n + 1)).st, .hold l'⟩ = m k := by
    intro k
    rw [← hhold]
    change (step w)^[k] (run w table opts mem gen (n + 1)) = _
    rw [← run_add, Nat.add_comm k]
  have hread : ∀ i, lastReading w .secs (m i) = (cpuReading w (m i)).sec := fun i =>
    cpuTime_secs (hsec _)
  -- a pass is made just as long as the whole seconds are short of `e`
  have hpass : ∀ k, (∀ j, j ≤ k → inHolding (m j).pc = true) →
      ((m (k + 1)).pc = .main ↔ e ≤ ((cpuReading w (m k)).sec : ℚ) - (cpuReading w (m 0)).sec) := by
    intro k hin
    obtain ⟨l'', hl, _⟩ := hstart.later k (by simpa only [hm] using hin)
    have hfirst : l'.now = (cpuReading w (m 0)).sec := by
      rw [← hread, ← hm 0]
      exact hstart.now
    have hsucc : m (k + 1) = step w (m k) := run_succ w table opts mem gen (n + 1 + k)
    have hiff := hl.main_iff
    rwa [hl.elapsed, hl.time, hfirst, hm, hread, ← hsucc] at hiff
  refine ⟨fun htime k hin hshort => ?_, fun hclock k hin => ⟨fun hmain => ?_, fun hmain => ?_⟩⟩
  · exact (htime k hin).2 fun hmain => absurd ((hpass k hin).mp hmain) (not_le.mpr hshort)
  · exact elapsed_of_seconds he ((hpass k hin).mp hmain)
  · exact hclock k hin (not_le.mp fun hlong => hmain ((hpass k hin).mpr hlong))

/-- The machine of `plainWorld` with a CPU clock that advances by a tenth of a
second at each reading, for 100 seconds. -/
def tenthWorld : World Unit :=
  { plainWorld with
    cpu := fun n =>
      if n < 1000 then ⟨n / 10, n % 10 * 100000000, by omega⟩ else ⟨100, 0, whole_nsec⟩ }

/-- A run with `-e 1`. -/
def tenthRun (n : Nat) : Machine Unit :=
  run tenthWorld smallTable [.M 1, .e 1, .t 0] (fun _ => 0) () n

theorem holding_time_unit_tenth :
    HeldOnTime tenthWorld 1 (fun k => tenthRun (3 + 1 + k)) ↔
      ∀ k, (∀ j, j ≤ k → inHolding (tenthRun (3 + 1 + j)).pc = true) →
        ((cpuReading tenthWorld (tenthRun (3 + 1 + k))).sec : ℚ) -
          (cpuReading tenthWorld (tenthRun (3 + 1 + 0))).sec < 1 →
        elapsed (cpuReading tenthWorld (tenthRun (3 + 1 + 0)))
          (cpuReading tenthWorld (tenthRun (3 + 1 + k))) < (1 + 1) * 10 ^ 6 := by
  have hsec : ∀ n, (tenthWorld.cpu n).sec < 2 ^ 63 := by
    intro n
    simp only [tenthWorld]
    split
    · simp only
      omega
    · decide
  exact holding_time_unit tenthWorld hsec smallTable [.M 1, .e 1, .t 0] (by decide) (fun _ => 0) () 3
    1 .secs ⟨0, 0, -1⟩ ⟨1, .secs, 0, 0, 1, 0⟩ (by decide +kernel) (by decide +kernel) le_rfl

/-- After 100 ms a locality of 1 ms still goes on. -/
theorem holding_late : ¬HeldOnTime tenthWorld 1 (fun k => tenthRun (3 + 1 + k)) := by
  intro h
  have hlate := (h 1 (by decide +kernel)).2 (by decide +kernel)
  revert hlate
  decide +kernel

end Gobbler.Proofs
