import Gobbler.Proofs.Mappings

namespace Gobbler.Proofs

variable {γ : Type} {w : World γ} {table : FileTable} {opts : List Opt} {mem : Nat → UInt8}
  {gen : γ} {b : Book}

/-- Whether a locality has begun that is not yet held to its end. -/
def inLocality (pc : Pc) : Nat := if inTransition pc ∨ inHolding pc then 1 else 0

/-- The counters of a program that runs. Every call of `job` either skipped its
locality or opened one phase, and every phase but the one under way was held. -/
structure Counts (v : View) : Prop where
  phases : v.book.curr + 1 = v.book.budgets.length
  jobs : v.book.jobs.length = v.book.budgets.length + v.book.skipped
  curJob : v.book.curJob = v.book.jobs.length
  held : v.book.phaseCnt + inLocality v.pc = v.book.budgets.length
  transition : v.book.inTransition = inTransition v.pc
  more : v.book.allocNomore = false

theorem Counts.of_boot {b b' : Book} {os : List Opt} (h : Counts ⟨b, .boot os⟩) (hc : Configured b b')
    (hl : b'.toLedger = b.toLedger) : Counts ⟨b', .main⟩ := by
  have hcurr : b'.curr = b.curr := congrArg Ledger.curr hl
  refine ⟨?_, ?_, ?_, ?_, hc.transition.trans h.transition, hc.nomore.trans h.more⟩
  · rw [hcurr, hc.budgets]
    exact h.phases
  · rw [hc.jobs, hc.budgets, hc.skipped]
    exact h.jobs
  · rw [hc.curJob, hc.jobs]
    exact h.curJob
  · rw [hc.phaseCnt, hc.budgets]
    exact h.held

/-- `main` has counted its locality and goes on. -/
structure Next (b b' : Book) : Prop where
  curr : b'.curr = b.curr
  budgets : b'.budgets = b.budgets
  jobs : b'.jobs = b.jobs
  skipped : b'.skipped = b.skipped
  phaseCnt : b'.phaseCnt = b.phaseCnt
  transition : b'.inTransition = b.inTransition
  curJob : b'.curJob = b.curJob + 1
  more : b'.allocNomore = false

theorem Located.next {b b' : Book} (h : Located b b') (hgo : ¬Over b') : Next b b' := by
  have hmore : b'.allocNomore = false := by simpa using (not_or.mp hgo).2
  obtain ⟨rows, _ | _⟩ := h <;> exact ⟨rfl, rfl, rfl, rfl, rfl, rfl, rfl, hmore⟩

theorem Counts.skip {b' : Book} (h : Counts ⟨b, .main⟩) (hn : Next b b') :
    Counts ⟨passedOver b', .main⟩ := by
  refine ⟨?_, ?_, ?_, ?_, hn.transition.trans h.transition, hn.more⟩
  · simpa [passedOver, called, hn.curr, hn.budgets] using h.phases
  · simp [passedOver, called, hn.jobs, hn.budgets, hn.skipped, h.jobs]
    omega
  · simpa [passedOver, called, hn.curJob, hn.jobs] using h.curJob
  · simpa [passedOver, called, hn.phaseCnt, hn.budgets] using h.held

theorem Counts.enter {b' : Book} {e : ℚ} {t : Granularity} {l : TransLocals} (h : Counts ⟨b, .main⟩)
    (hn : Next b b') (cnt : Nat) : Counts ⟨opened (called b') cnt, .trans e t l⟩ := by
  have hheld := h.held
  refine ⟨?_, ?_, ?_, ?_, rfl, hn.more⟩
  · simp [opened, called, hn.curr, hn.budgets, h.phases]
  · simp [opened, called, hn.jobs, hn.budgets, hn.skipped, h.jobs]
    omega
  · simpa [opened, called, hn.curJob, hn.jobs] using h.curJob
  · simp [inLocality, inTransition, inHolding] at hheld
    simp [opened, called, inLocality, inTransition, hn.phaseCnt, hn.budgets, hheld]

/-- A request changes none of the counters. -/
theorem Counts.request {e : ℚ} {t : Granularity} {l l' : TransLocals} {led : Ledger}
    (h : Counts ⟨b, .trans e t l⟩) (hc : led.curr = b.curr) :
    Counts ⟨withLedger b led, .trans e t l'⟩ :=
  ⟨hc ▸ h.phases, h.jobs, h.curJob, h.held, h.transition, h.more⟩

theorem Counts.idle {b' : Book} {pc pc' : Pc} (h : Counts ⟨b, pc⟩) (hi : Idle w b pc b' pc')
    (hrun : halted pc' = none) : Counts ⟨b', pc'⟩ := by
  have hheld := h.held
  cases hi with
  | ended | unread | leaveHalt | holdHalt | stopped => cases hrun
  | leave => exact ⟨h.phases, h.jobs, h.curJob, hheld, rfl, h.more⟩
  | hold num => exact ⟨h.phases, h.jobs, h.curJob, hheld, h.transition, h.more⟩
  | held =>
    refine ⟨h.phases, h.jobs, h.curJob, ?_, h.transition, h.more⟩
    simpa [inLocality, inTransition, inHolding] using hheld

theorem Counts.move {v v' : View} (h : halted v.pc = none → Counts v) (hm : Move w v v')
    (hrun : halted v'.pc = none) : Counts v' := by
  have hc := h (hm.running hrun)
  cases hm with
  | boot configured ledger next =>
    rcases next with rfl | ⟨x, rfl, _⟩
    · exact hc.of_boot configured ledger
    · cases hrun
  | idle hi => exact hc.idle hi hrun
  | finish | overrun | enterHalt | trouble | aborted => cases hrun
  | skip located go _ => exact hc.skip (located.next go)
  | enter located go _ _ => exact hc.enter (located.next go) _
  | request _ request => exact hc.request request.curr

theorem booted_counts (table : FileTable) (opts : List Opt) (mem : Nat → UInt8) (gen : γ) :
    Counts (view (booted table opts mem gen)) :=
  ⟨rfl, rfl, rfl, rfl, rfl, rfl⟩

theorem run_counts (w : World γ) (table : FileTable) (opts : List Opt) (mem : Nat → UInt8)
    (gen : γ) (n : Nat) (hrun : halted (run w table opts mem gen n).pc = none) :
    Counts (view (run w table opts mem gen n)) :=
  run_invariant w table opts mem gen (I := fun v => halted v.pc = none → Counts v)
    (fun _ => booted_counts table opts mem gen) (fun _ _ _ _ h hm => Counts.move h hm) n hrun

/-- In every state of every run that goes on: each call of `job` skipped its
locality or opened exactly one phase, each phase before the one under way was
held to its end, `in_transition` is set during transitions only, and no locality
begins once the limit was seen exceeded. -/
theorem life_cycle (w : World γ) (table : FileTable) (opts : List Opt) (mem : Nat → UInt8) (gen : γ)
    (n : Nat) (hrun : halted (run w table opts mem gen n).pc = none) :
    let m := run w table opts mem gen n
    m.st.curr + 1 = m.st.budgets.length ∧
      m.st.jobs.length = m.st.budgets.length + m.st.skipped ∧
      m.st.curJob = m.st.jobs.length ∧
      m.st.phaseCnt + inLocality m.pc = m.st.budgets.length ∧
      m.st.inTransition = inTransition m.pc ∧ m.st.allocNomore = false := by
  have h := run_counts w table opts mem gen n hrun
  exact ⟨h.phases, h.jobs, h.curJob, h.held, h.transition, h.more⟩

theorem life_cycle_second_phase :
    let m := run plainWorld smallTable [.M 3, .e 1, .t 0] (fun _ => 0) () 10
    m.st.curr + 1 = m.st.budgets.length ∧
      m.st.jobs.length = m.st.budgets.length + m.st.skipped ∧
      m.st.curJob = m.st.jobs.length ∧
      m.st.phaseCnt + inLocality m.pc = m.st.budgets.length ∧
      m.st.inTransition = inTransition m.pc ∧ m.st.allocNomore = false :=
  life_cycle plainWorld smallTable [.M 3, .e 1, .t 0] (fun _ => 0) () 10 (by decide +kernel)

end Gobbler.Proofs
