import Gobbler.Model.Random

namespace Gobbler.Proofs
open Effect

variable {γ : Type} {w : World γ}

/-- What makes the arithmetic behind a call safe; `max` is the number of file
classes. -/
def Safe (max : Nat) : Call → Prop
  | .randLim limit => 1 ≤ limit ∧ limit < randMax
  | .randIntr first last => wrap (wrapSub last first + 1) ≠ 0
  | .strideGetOffset len => 1 ≤ len
  | .fileLst i => i < max

/-- The calls added on the way from `s` to `t` are safe ones. -/
def CallsSafe (s t : St γ) : Prop :=
  ∀ c ∈ t.calls, c ∈ s.calls ∨ Safe s.fileLst.length c

/-- Every draw of `rand_lim` ends while it is observed. -/
def Draws (w : World γ) : Prop :=
  ∀ (limit : Int) (s : St γ), 1 ≤ limit → limit < randMax →
    Ends (randLim w limit) s (fun _ _ => True) (fun _ _ => False)

/-- The ends that the machine brings about. -/
inductive Forced (w : World γ) : Halt → Prop
  | draw (h : ¬Draws w) : Forced w .spinning
  | path {n : Nat} (h : w.opens n = false) : Forced w (.exit "Failed path: ")
  | mmap {n : Nat} (h : w.mmap n = none) : Forced w (.exit "mmap")
  | madvise {n : Nat} (h : w.madvise n = false) : Forced w (.exit "madvise")
  | malloc {n : Nat} (h : w.malloc n = false) : Forced w (.exit "Failure to alloc fix's node:")

/-- What `wctime` returns for a reading of the wall clock. -/
def wallTime (w : World γ) (t : Granularity) (n : Nat) : ℚ :=
  wrap ((w.wall n).sec * (converter t).secs + (w.wall n).usec * (converter t).microsecs)

/-- What `cputime` returns for a reading of the CPU clock. -/
def cpuTime (w : World γ) (t : Granularity) (n : Nat) : ℚ :=
  wrap ((w.cpu n).sec * (converter t).secs + (w.cpu n).nsec * (converter t).nanosecs)

theorem converter_secs : converter .secs = ⟨1, 0, 0⟩ := by
  decide +kernel

/-- In seconds, `cputime` drops the nanoseconds. -/
theorem cpuTime_secs {n : Nat} (h : (w.cpu n).sec < 2 ^ 63) :
    cpuTime w .secs n = (w.cpu n).sec := by
  simp only [cpuTime, converter_secs, wrap]
  norm_cast
  omega

/-- Only the world was consulted. -/
structure Quiet (s t : St γ) : Prop where
  book : t.toBook = s.toBook
  memory : t.toMemory = s.toMemory
  calls : CallsSafe s t
  reads : s.cpuReads ≤ t.cpuReads

theorem Quiet.refl (s : St γ) : Quiet s s := ⟨rfl, rfl, fun _ h => .inl h, Nat.le_refl _⟩

theorem CallsSafe.trans {s t u : St γ} (hl : t.fileLst.length = s.fileLst.length)
    (h : CallsSafe s t) (h' : CallsSafe t u) : CallsSafe s u := by
  intro c hc
  rcases h' c hc with hm | hn
  · exact h c hm
  · exact .inr (hl ▸ hn)

theorem Quiet.fileLst {s t : St γ} (h : Quiet s t) : t.fileLst = s.fileLst :=
  congrArg (fun b : Book => b.fileLst) h.book

theorem Quiet.curr {s t : St γ} (h : Quiet s t) : t.curr = s.curr :=
  congrArg (fun b : Book => b.curr) h.book

theorem Quiet.mem {s t : St γ} (h : Quiet s t) : t.mem = s.mem := congrArg Memory.mem h.memory

theorem Quiet.fixHead {s t : St γ} (h : Quiet s t) : t.fixHead = s.fixHead :=
  congrArg Memory.fixHead h.memory

theorem Quiet.writes {s t : St γ} (h : Quiet s t) : t.writes = s.writes :=
  congrArg Memory.writes h.memory

theorem Quiet.trans {s t u : St γ} (h : Quiet s t) (h' : Quiet t u) : Quiet s u :=
  ⟨h'.book.trans h.book, h'.memory.trans h.memory,
    h.calls.trans (by rw [h.fileLst]) h'.calls, Nat.le_trans h.reads h'.reads⟩

instance : IsPreorder (St γ) Quiet where
  refl := Quiet.refl
  trans _ _ _ := Quiet.trans

theorem note_safe {c : Call} {s t : St γ} (h : Safe s.fileLst.length c)
    (ht : t.calls = c :: s.calls) : CallsSafe s t := by
  intro d hd
  rw [ht] at hd
  rcases List.mem_cons.mp hd with rfl | hd
  · exact .inr h
  · exact .inl hd

theorem note_quiet {c : Call} {X : Halt → Prop} (h : ∀ max, Safe max c) :
    Yields Quiet X (fun _ => True) (note c : M γ PUnit) :=
  fun _ => ⟨⟨rfl, rfl, note_safe (h _) rfl, Nat.le_refl _⟩, trivial⟩

theorem defined_yields {R : St γ → St γ → Prop} [IsPreorder (St γ) R] {X : Halt → Prop}
    {c : Prop} [Decidable c] {what : Undefined} (h : c) :
    Yields R X (fun _ => True) (defined c what : M γ PUnit) := by
  unfold defined
  rw [if_pos h]
  exact yields_pure trivial

theorem cputime_quiet {X : Halt → Prop} (t : Granularity) :
    Yields Quiet X (fun _ => True) (cputime w t) :=
  fun _ => ⟨⟨rfl, rfl, fun _ h => .inl h, Nat.le_succ _⟩, trivial⟩

theorem wctime_quiet {X : Halt → Prop} (t : Granularity) :
    Yields Quiet X (fun _ => True) (wctime w t) :=
  fun _ => ⟨⟨rfl, rfl, fun _ h => .inl h, Nat.le_refl _⟩, trivial⟩

theorem wctime_ends (t : Granularity) (s : St γ) :
    Ends (wctime w t) s
      (fun v u => v = wallTime w t s.wallReads ∧ u = { s with wallReads := s.wallReads + 1 })
      (fun _ _ => False) :=
  ⟨rfl, rfl⟩

theorem cputime_ends (t : Granularity) (s : St γ) :
    Ends (cputime w t) s
      (fun v u => v = cpuTime w t s.cpuReads ∧ u = { s with cpuReads := s.cpuReads + 1 })
      (fun _ _ => False) :=
  ⟨rfl, rfl⟩

theorem rand_quiet {X : Halt → Prop} : Yields Quiet X (fun v => v ≤ randMax) (rand w) :=
  fun s => ⟨⟨rfl, rfl, fun _ h => .inl h, Nat.le_refl _⟩, w.rand_le s.gen⟩

theorem reseed_quiet {X : Halt → Prop} : Yields Quiet X (fun _ => True) (reseed w) :=
  yields_bind (cputime_quiet .secs) fun _ _ =>
    yields_modify fun _ => ⟨rfl, rfl, fun _ h => .inl h, Nat.le_refl _⟩

/-- A draw is accepted in its bucket, or the loop outlasts the observation. -/
theorem randLimLoop_quiet {divisor limit : Int} (hd : 0 < divisor) (n : Nat) :
    Yields Quiet (· = .spinning) (fun v => 0 ≤ v ∧ v < limit) (randLimLoop w divisor limit n) := by
  induction n with
  | zero => exact yields_throw rfl
  | succ n ih =>
    refine yields_bind rand_quiet fun r _ => yields_ite (fun _ => ih) fun h => yields_pure ⟨?_, ?_⟩
    · exact Int.tdiv_nonneg (Int.natCast_nonneg r) (Int.le_of_lt hd)
    · omega

theorem randLim_divisor {limit : Int} (h : 1 ≤ limit) (h' : limit < randMax) :
    0 < (randMax : Int).tdiv (limit + 1) := by
  rw [Int.tdiv_eq_ediv_of_nonneg (by simp [randMax])]
  have hle : 1 * (limit + 1) ≤ (randMax : Int) := by omega
  exact (Int.le_ediv_iff_mul_le (by omega)).mpr hle

/-- For a usable limit, `rand_lim` returns a number below it or loops on. -/
theorem randLim_spins {limit : Int} (h : 1 ≤ limit) (h' : limit < randMax) :
    Yields Quiet (· = .spinning) (fun v => 0 ≤ v ∧ v < limit) (randLim w limit) := by
  have hd := randLim_divisor h h'
  refine yields_bind (note_quiet fun _ => ⟨h, h'⟩) fun _ _ => ?_
  refine yields_bind (defined_yields (by omega)) fun _ _ => ?_
  refine yields_bind (defined_yields (by omega)) fun _ _ => ?_
  exact yields_bind reseed_quiet fun _ _ => randLimLoop_quiet hd w.patience

theorem randLim_quiet {limit : Int} (h : 1 ≤ limit) (h' : limit < randMax) :
    Yields Quiet (Forced w) (fun v => 0 ≤ v ∧ v < limit) (randLim w limit) := by
  have hspins := randLim_spins (w := w) h h'
  intro s
  by_cases hw : Draws w
  · exact ((hspins s).and (hw limit s h h')).mono (fun _ _ hq => hq.1) fun _ _ he => he.2.elim
  · refine (hspins s).mono (fun _ _ hq => hq) ?_
    rintro _ _ ⟨hq, rfl⟩
    exact ⟨hq, .draw hw⟩

theorem randIntrLoop_quiet {X : Halt → Prop} (limit upper randVal : Nat) :
    Yields Quiet X (fun _ => True) (randIntrLoop w limit upper randVal) := by
  induction upper generalizing randVal with
  | zero => exact yields_pure trivial
  | succ upper ih =>
    exact yields_ite (fun _ => yields_bind rand_quiet fun v _ => ih v) fun _ => yields_pure trivial

/-- `rand_intr` always returns, and within its two ends. -/
theorem randIntr_quiet {X : Halt → Prop} {first last : Nat} (h : first ≤ last)
    (h' : last - first + 1 < 2 ^ 64) (hl : last < 2 ^ 64) :
    Yields Quiet X (fun v => first ≤ v ∧ v ≤ last) (randIntr w first last) := by
  have hr : wrap (wrapSub last first + 1) = last - first + 1 := by
    simp only [wrap, wrapSub]
    omega
  refine yields_bind (note_quiet fun _ => ?_) fun _ _ => ?_
  · simp only [Safe, hr]
    omega
  rw [hr]
  refine yields_bind (defined_yields (by omega)) fun _ _ => ?_
  refine yields_bind reseed_quiet fun _ _ => yields_bind rand_quiet fun _ _ => ?_
  refine yields_bind (randIntrLoop_quiet _ _ _) fun v _ => yields_pure ?_
  have hm : v % (last - first + 1) < last - first + 1 := Nat.mod_lt _ (by omega)
  simp only [wrap]
  omega

end Gobbler.Proofs
