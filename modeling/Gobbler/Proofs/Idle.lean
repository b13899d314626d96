import Gobbler.Proofs.Holding

namespace Gobbler.Proofs
open Effect

variable {γ : Type} {w : World γ} {table : FileTable} {opts : List Opt} {mem : Nat → UInt8}
  {gen : γ}

/-- A value of the type `int`. -/
def IntFits (x : Int) : Prop := -2 ^ 31 ≤ x ∧ x < 2 ^ 31

/-- The turn from `m` to `m'` is a pass of `loop_for`, which calls `loop_once`. -/
def idles (m m' : Machine γ) : Bool := inHolding m.pc && inHolding m'.pc

/-- The sums and counters of a pass of `loop_for` are values of their type. -/
def IdleFits (m m' : Machine γ) : Prop :=
  ∀ l l', m.pc = .hold l → m'.pc = .hold l' →
    (∀ i, i ≤ nums → IntFits (m.st.num.take i).sum) ∧ (∀ c ∈ m'.st.num, IntFits c) ∧ IntFits l'.tmp

/-- The calls of `loop_once` in the first turns of a run. -/
def idleCalls (r : Nat → Machine γ) : Nat → Nat
  | 0 => 0
  | n + 1 => idleCalls r n + if idles (r n) (r (n + 1)) then 1 else 0

/-- Those of them that were made before the present call of `loop_for`. -/
def idleBefore (r : Nat → Machine γ) : Nat → Nat
  | 0 => 0
  | n + 1 => if inHolding (r n).pc then idleBefore r n else idleCalls r n

/-- The calls of the present `loop_for`, each with its number in the process, added up. -/
def idleSum (r : Nat → Machine γ) (n : Nat) : Nat :=
  ∑ i ∈ Finset.Ico (idleBefore r n) (idleCalls r n), i

theorem Located.num {b b' : Book} (h : Located b b') : b'.num = b.num := by
  obtain ⟨_, _ | _⟩ := h <;> rfl

/-- Only a pass of `loop_for` counts, and `tmp` starts at zero. -/
theorem Move.num {v v' : View} (h : Move w v v')
    (hout : (inHolding v.pc && inHolding v'.pc) = false) :
    v'.book.num = v.book.num ∧ ∀ l, v'.pc = .hold l → l.tmp = 0 := by
  cases h with
  | boot configured _ next _ =>
    refine ⟨configured.num, fun l hpc => ?_⟩
    rcases next with rfl | ⟨_, rfl, _⟩ <;> cases hpc
  | idle hi =>
    cases hi with
    | hold => cases hout
    | leave =>
      refine ⟨rfl, fun l hpc => ?_⟩
      cases hpc
      rfl
    | _ => exact ⟨rfl, nofun⟩
  | finish located _ | overrun located _ | skip located _ _ | enterHalt located _ _ | enter located _ _ _ =>
    exact ⟨located.num, nofun⟩
  | request | trouble | aborted => exact ⟨rfl, nofun⟩

theorem loopOnce_counts {last : ℚ} (h : ¬last ≤ 0) (s : St γ) :
    Ends (loopOnce last) s
      (fun j t => j = s.num.sum ∧ t = { s with num := s.num.map (· + 1) }) fun _ _ => False := by
  unfold loopOnce
  rw [if_neg h]
  exact ⟨rfl, rfl⟩

theorem loopForPass_counts {l : HoldLocals} (h : l.run < l.execTime) (s : St γ) :
    Ends (loopForPass w l) s
      (fun l' t => t.num = s.num.map (· + 1) ∧ l'.tmp = l.tmp + s.num.sum) fun _ _ => True := by
  unfold loopForPass
  rw [ends_bind]
  refine (loopForTouch_ends l.i s).mono ?_ fun _ _ _ => trivial
  intro i t ht
  have hnum : t.num = s.num := congrArg (fun b : Book => b.num) ht.kept.book
  rw [ends_bind]
  refine (loopOnce_counts (by linarith) t).mono ?_ fun _ _ he => he.elim
  rintro j _ ⟨rfl, rfl⟩
  rw [ends_bind]
  refine (cputime_ends l.t _).mono ?_ fun _ _ he => he.elim
  rintro now _ ⟨_, rfl⟩
  rw [← hnum]
  exact ⟨rfl, rfl⟩

/-- A pass of `loop_for` adds the counters up and raises each by one. -/
theorem step_counts {m : Machine γ} {l l' : HoldLocals} (hpc : m.pc = .hold l)
    (hpc' : (step w m).pc = .hold l') :
    (step w m).st.num = m.st.num.map (· + 1) ∧ l'.tmp = l.tmp + m.st.num.sum := by
  have hturn : Ends (turn w m.pc) m.st
      (fun pc t => pc = .hold l' → t.num = m.st.num.map (· + 1) ∧ l'.tmp = l.tmp + m.st.num.sum)
      fun _ _ => True := by
    rw [hpc]
    unfold turn
    rw [ends_ite]
    refine ⟨fun hleft => ?_, fun _ => nofun⟩
    apply (loopForPass_counts hleft m.st).bind
    intro l'' t hq heq
    obtain ⟨hnum, htmp⟩ := hq
    cases heq
    exact ⟨hnum, htmp⟩
  revert hpc'
  unfold step Ends at *
  cases hrun : turn w m.pc m.st with
  | ok pc t =>
    rw [hrun] at hturn
    exact hturn
  | error e t => exact nofun

/-- The counters all equal the number of the calls, and `tmp` is a multiple of
the sum of their numbers. -/
structure Summed (r : Nat → Machine γ) (n : Nat) : Prop where
  before : idleBefore r n ≤ idleCalls r n
  num : (r n).st.num = List.replicate nums (idleCalls r n : Int)
  tmp : ∀ l, (r n).pc = .hold l → l.tmp = nums * idleSum r n

section calls

variable {r : Nat → Machine γ} {n : Nat}

theorem idleCalls_pass (h : idles (r n) (r (n + 1)) = true) :
    idleCalls r (n + 1) = idleCalls r n + 1 := by
  rw [idleCalls, h, if_pos rfl]

theorem idleBefore_hold (h : inHolding (r n).pc = true) : idleBefore r (n + 1) = idleBefore r n := by
  rw [idleBefore, if_pos h]

theorem idleSum_pass (h : idles (r n) (r (n + 1)) = true) :
    idleSum r (n + 1) = ∑ i ∈ Finset.Ico (idleBefore r n) (idleCalls r n + 1), i := by
  rw [idleSum, idleCalls_pass h, idleBefore_hold (Bool.and_eq_true_iff.mp h).1]

theorem Summed.next (h : Summed r n)
    (hmove : Move w (view (r n)) (view (r (n + 1)))) (hstep : r (n + 1) = step w (r n)) :
    Summed r (n + 1) := by
  cases hidle : idles (r n) (r (n + 1)) with
  | true =>
    obtain ⟨hin, hin'⟩ := Bool.and_eq_true_iff.mp hidle
    obtain ⟨l, hl⟩ := inHolding_iff.mp hin
    refine ⟨?_, ?_, fun l' hl' => ?_⟩
    · rw [idleCalls_pass hidle, idleBefore_hold hin]
      exact Nat.le_succ_of_le h.before
    · obtain ⟨l', hl'⟩ := inHolding_iff.mp hin'
      obtain ⟨hnum, _⟩ := step_counts (w := w) hl (hstep ▸ hl')
      rw [hstep, hnum, h.num, idleCalls_pass hidle, List.map_replicate]
      push_cast
      rfl
    · obtain ⟨_, htmp⟩ := step_counts (w := w) hl (hstep ▸ hl')
      rw [htmp, h.tmp l hl, h.num, List.sum_replicate, idleSum_pass hidle,
        Finset.sum_Ico_succ_top h.before, idleSum]
      push_cast
      rw [nsmul_eq_mul]
      ring
  | false =>
    have hcalls : idleCalls r (n + 1) = idleCalls r n := by
      rw [idleCalls, hidle, if_neg Bool.false_ne_true, Nat.add_zero]
    obtain ⟨hnum, htmp⟩ := hmove.num hidle
    refine ⟨?_, ?_, fun l hl => ?_⟩
    · rw [hcalls, idleBefore]
      split
      · exact h.before
      · exact Nat.le_refl _
    · rw [hcalls]
      exact Eq.trans hnum h.num
    · have hout : ¬inHolding (r n).pc = true := by
        intro hin
        have hin' := inHolding_iff.mpr ⟨l, hl⟩
        rw [idles, hin, hin'] at hidle
        cases hidle
      rw [htmp l hl, idleSum, hcalls, idleBefore, if_neg hout, Finset.Ico_self]
      rfl

/-- The values of a pass fit just when its call and the earlier ones of the same
`loop_for` have numbers that add up to less than 2^19. -/
theorem Summed.fits_iff (h : Summed r n) (h' : Summed r (n + 1)) :
    IdleFits (r n) (r (n + 1)) ↔ (idles (r n) (r (n + 1)) = true →
      ∑ i ∈ Finset.Ico (idleBefore r n) (idleCalls r n + 1), i < 2 ^ 19) := by
  constructor
  · intro hfits hidle
    obtain ⟨hin, hin'⟩ := Bool.and_eq_true_iff.mp hidle
    obtain ⟨l, hl⟩ := inHolding_iff.mp hin
    obtain ⟨l', hl'⟩ := inHolding_iff.mp hin'
    obtain ⟨_, _, _, htmp⟩ := hfits l l' hl hl'
    rw [h'.tmp l' hl', idleSum_pass hidle] at htmp
    simp only [nums] at htmp
    omega
  · intro hsum l l' hl hl'
    have hidle : idles (r n) (r (n + 1)) = true := by
      rw [idles, hl, hl']
      rfl
    have hlt := hsum hidle
    have hcalls : idleCalls r n < 2 ^ 19 := by
      rw [Finset.sum_Ico_succ_top h.before] at hlt
      omega
    refine ⟨fun i hi => ?_, fun c hc => ?_, ?_⟩
    · rw [h.num, List.take_replicate, List.sum_replicate, Nat.min_eq_left hi, nsmul_eq_mul]
      have hprod : i * idleCalls r n < 2 ^ 31 := by
        simp only [nums] at hi
        nlinarith
      constructor
      · exact le_trans (by decide) (Int.natCast_nonneg (i * idleCalls r n))
      · exact_mod_cast hprod
    · rw [h'.num] at hc
      obtain ⟨_, rfl⟩ := List.mem_replicate.mp hc
      rw [idleCalls_pass hidle]
      constructor <;> omega
    · rw [h'.tmp l' hl', idleSum_pass hidle]
      simp only [nums]
      constructor <;> omega

end calls

theorem run_summed (w : World γ) (table : FileTable) (opts : List Opt) (mem : Nat → UInt8) (gen : γ)
    (n : Nat) : Summed (run w table opts mem gen) n := by
  induction n with
  | zero => exact ⟨Nat.le_refl _, rfl, nofun⟩
  | succ n ih => exact ih.next (run_turned w table opts mem gen n).move (run_succ w table opts mem gen n)

/-- In a run every sum and counter of the idle loop fits its type just as long as,
in each call of `loop_for`, the numbers of its calls of `loop_once`, counted from 0
over the whole process, add up to less than 2^19. -/
theorem idle_loop_range (w : World γ) (table : FileTable) (opts : List Opt) (mem : Nat → UInt8)
    (gen : γ) (n : Nat) :
    let r := run w table opts mem gen
    (∀ k, k < n → IdleFits (r k) (r (k + 1))) ↔
      ∀ k, k < n → idles (r k) (r (k + 1)) = true →
        ∑ i ∈ Finset.Ico (idleBefore r k) (idleCalls r k + 1), i < 2 ^ 19 :=
  forall₂_congr fun k _ =>
    (run_summed w table opts mem gen k).fits_iff (run_summed w table opts mem gen (k + 1))

/-- A phase without mappings that is held for a second, by a CPU clock that stays
in the same one. -/
def emptyRun (n : Nat) : Machine Unit := run calmWorld smallTable [.M 0, .e 1] (fun _ => 0) () n

theorem calmWorld_clock (n : Nat) : cpuTime calmWorld .secs n = 0 := by
  rw [cpuTime_secs (show 0 < 2 ^ 63 by decide)]
  rfl

theorem emptyRun_holds (k : Nat) : ∃ l, Looping calmWorld 1 .secs 0 0 k l (emptyRun (3 + k)) := by
  induction k with
  | zero =>
    refine ⟨⟨1, .secs, 0, 0, 0, 0⟩, ?_, rfl, rfl, ⟨?_, ?_⟩, ?_, rfl, ?_, ?_⟩
    · decide +kernel
    · decide +kernel
    · decide +kernel
    · decide +kernel
    · exact (calmWorld_clock _).symm
    · rw [sub_zero]
  | succ k ih =>
    obtain ⟨l, hl⟩ := ih
    have hleft : l.run < l.execTime := by
      rw [hl.elapsed, lastReading, calmWorld_clock, hl.time]
      norm_num
    have hpass := hl.pass hleft
    have hvisit : visit calmWorld 0 k = pure ⟨⟩ := rfl
    rw [hvisit, ends_pure] at hpass
    obtain ⟨_, _, hnext⟩ := hpass
    have hsucc : emptyRun (3 + (k + 1)) = step calmWorld (emptyRun (3 + k)) :=
      run_succ calmWorld smallTable _ _ _ (3 + k)
    rw [hsucc]
    exact hnext

theorem emptyRun_idles (k : Nat) : idles (emptyRun (3 + k)) (emptyRun (3 + k + 1)) = true := by
  obtain ⟨l, hl⟩ := emptyRun_holds k
  obtain ⟨l', hl'⟩ := emptyRun_holds (k + 1)
  exact Bool.and_eq_true_iff.mpr ⟨inHolding_iff.mpr ⟨l, hl.pc⟩, inHolding_iff.mpr ⟨l', hl'.pc⟩⟩

theorem emptyRun_calls (k : Nat) :
    idleCalls emptyRun (3 + k) = k ∧ idleBefore emptyRun (3 + k) = 0 := by
  induction k with
  | zero => decide +kernel
  | succ k ih =>
    have hidle := emptyRun_idles k
    obtain ⟨hcalls, hbefore⟩ := ih
    rw [← Nat.add_assoc, idleCalls_pass hidle, hcalls,
      idleBefore_hold (Bool.and_eq_true_iff.mp hidle).1, hbefore]
    exact ⟨rfl, rfl⟩

theorem emptyRun_fits {k : Nat} (h : IdleFits (emptyRun (3 + k)) (emptyRun (3 + k + 1))) :
    ∑ i ∈ Finset.range (k + 1), i < 2 ^ 19 := by
  have hiff := (run_summed calmWorld smallTable [.M 0, .e 1] (fun _ => 0) () (3 + k)).fits_iff
    (run_summed calmWorld smallTable [.M 0, .e 1] (fun _ => 0) () (3 + k + 1))
  obtain ⟨hcalls, hbefore⟩ := emptyRun_calls k
  have hsum := hiff.mp h (emptyRun_idles k)
  change ∑ i ∈ Finset.Ico (idleBefore emptyRun (3 + k)) (idleCalls emptyRun (3 + k) + 1), i < 2 ^ 19
    at hsum
  rwa [hcalls, hbefore, ← Finset.range_eq_Ico] at hsum

/-- The 1025th pass of the first `loop_for` takes `tmp` out of its range. -/
theorem idle_loop_overflow : ¬IdleFits (emptyRun 1027) (emptyRun 1028) := by
  intro h
  have hsum := emptyRun_fits (k := 1024) h
  rw [Finset.sum_range_id] at hsum
  exact absurd hsum (by decide)

end Gobbler.Proofs
