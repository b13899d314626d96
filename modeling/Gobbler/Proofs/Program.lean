import Gobbler.Lib.Stepping
import Gobbler.Model.Source
import Gobbler.Proofs.Runs

namespace Gobbler.Proofs
open Effect Stepping

variable {γ : Type} {w : World γ}

/-- The machine of the turns. -/
def stepper (w : World γ) : Stepper Halt (St γ) (Machine γ) where
  step := step w
  running m := halted m.pc = none
  stop h s := ⟨s, .stopped h⟩
  out := .spinning
  stays m hm := by
    by_contra hstop
    obtain ⟨h, hh⟩ := Option.ne_none_iff_exists'.mp hstop
    rw [step_halted hh] at hm
    exact hstop hm

/-- The machine at a head of a loop. -/
def place (pc : Pc) (s : St γ) : Machine γ := ⟨s, pc⟩

/-- The rest of a holding state, and of what comes after it. -/
def restOfHold (w : World γ) (passes : Nat) (after : M γ PUnit) (l : HoldLocals) : M γ PUnit := do
  let _ ← repeatWhile .spinning (fun l => l.run < l.execTime) (loopForPass w) passes l
  modify fun s => { s with phaseCnt := s.phaseCnt + 1 }
  after

/-- The rest of a locality from the head of a loop on, and of what comes after it. -/
def restOf (w : World γ) (passes : Nat) (after : M γ PUnit) : Pc → M γ PUnit
  | .boot opts => do
    let _ ← mainEnter w opts
    after
  | .main => after
  | .trans execTime t l => do
    let _ ← repeatWhile .spinning (fun l => l.cnt ≠ 0) (transRandAllocPass w) passes l
    transRandAllocLeave
    let _ ← currTrack
    let l ← loopForEnter w execTime t
    restOfHold w passes after l
  | .hold l => restOfHold w passes after l
  | .stopped h => if h = .returned then pure ⟨⟩ else throw h

theorem ite_then {α β : Type} (c : Prop) [Decidable c] (m n : M γ α) (f : α → M γ β) :
    (if c then m else n) >>= f = if c then m >>= f else n >>= f := by
  split <;> rfl

theorem jobHold_rest (passes : Nat) (after : M γ PUnit) (execTime : ℚ) (t : Granularity) :
    jobHold w execTime t >>= restOf w passes after = (do
      let _ ← currTrack
      let l ← loopForEnter w execTime t
      restOfHold w passes after l) := by
  simp only [jobHold, bind_assoc, pure_bind, restOf]

/-- The call of `job` in the condition of the loop of `main`, and what comes after it. -/
theorem job_rest (passes : Nat) (after : M γ PUnit) (execTime : ℚ) (t : Granularity) :
    (do if ← Source.job w passes execTime t then after else pure ⟨⟩) =
      job w execTime t >>= restOf w passes after := by
  simp only [Source.job, job, bind_assoc, ite_then, pure_bind, jobHold_rest, transRandAlloc,
    Source.loopFor, restOf, restOfHold, ne_eq, not_true, if_true, if_false]

theorem mainLoop_succ (passes n : Nat) :
    Source.mainLoop w passes (n + 1) =
      mainPass w >>= restOf w passes (Source.mainLoop w passes n) := by
  simp only [Source.mainLoop, mainPass, limits, bind_assoc, ite_then, pure_bind, ← job_rest]
  simp only [restOf, if_true]

/-- A turn that is a computation and the place it comes to. -/
theorem turn_steps {α : Type} {pc : Pc} {m : M γ α} {f : α → Pc}
    (h : turn w pc = m >>= fun a => pure (f a)) :
    Steps (stepper w) (place pc) m fun a => place (f a) := by
  intro s
  simp only [Ends, stepper, step, place, h, bind, EStateM.bind]
  cases m s <;> rfl

/-- A loop of the program, at whose head the machine is `pc` of its locals. -/
theorem loop_follows {β : Type} (pc : β → Pc) {c : β → Bool} {body : β → M γ β}
    (hpc : ∀ b, halted (pc b) = none)
    (hbody : ∀ b, c b = true → turn w (pc b) = body b >>= fun b => pure (pc b))
    {rest : β → M γ PUnit} {passes k : Nat} (hk : k ≤ passes)
    (hrest : ∀ b, c b = false → Follows (stepper w) k (place (pc b)) (rest b)
      fun _ => place (.stopped .returned)) (b : β) :
    Follows (stepper w) k (place (pc b)) (repeatWhile .spinning c body passes b >>= rest)
      fun _ => place (.stopped .returned) := by
  have hrun : ∀ b (s : St γ), (stepper w).running (place (pc b) s) := fun b _ => hpc b
  have hloop : Follows (stepper w) passes (place (pc b)) (repeatWhile .spinning c body passes b)
      fun b => place (pc b) := follows_repeatWhile hrun (fun b hb => turn_steps (hbody b hb)) b
  exact (hloop.le hk).bind (repeatWhile_left passes b) hrest

theorem mainEnter_main (opts : List Opt) :
    turn w (.boot opts) = mainEnter w opts >>= fun _ => pure Pc.main := by
  simp only [turn, mainEnter, bind_assoc, pure_bind, ite_then]

section rest

variable {passes k : Nat} {after : M γ PUnit} (hk : k ≤ passes)
  (hafter : Follows (stepper w) k (place .main) after fun _ => place (.stopped .returned))

include hk hafter in
theorem restOfHold_follows (l : HoldLocals) :
    Follows (stepper w) k (place (.hold l)) (restOfHold w passes after l)
      fun _ => place (.stopped .returned) := by
  refine loop_follows .hold (fun _ => rfl) ?_ hk ?_ l
  · intro l hl
    simp only [turn, of_decide_eq_true hl, if_true]
  · intro l hl
    have hturn : turn w (.hold l) =
        (modify fun s => { s with phaseCnt := s.phaseCnt + 1 }) >>= fun _ => pure Pc.main := by
      simp only [turn, of_decide_eq_false hl, if_false]
    exact ((turn_steps hturn).bind fun _ => hafter).le (Nat.le_succ k)

include hk hafter in
theorem restOf_follows (pc : Pc) :
    Follows (stepper w) k (place pc) (restOf w passes after pc)
      fun _ => place (.stopped .returned) := by
  cases pc with
  | boot opts =>
    exact ((turn_steps (mainEnter_main opts)).bind fun _ => hafter).le (Nat.le_succ k)
  | main => exact hafter
  | trans execTime t l =>
    refine loop_follows (.trans execTime t) (fun _ => rfl) ?_ hk ?_ l
    · intro l hl
      simp only [turn, if_pos (of_decide_eq_true hl)]
    · intro l hl
      have hturn : turn w (.trans execTime t l) =
          (transRandAllocLeave >>= fun _ => currTrack >>= fun _ => loopForEnter w execTime t) >>=
            fun l => pure (Pc.hold l) := by
        simp only [turn, if_neg (of_decide_eq_false hl), jobHold, bind_assoc]
      have hrest := (turn_steps hturn).bind fun l => restOfHold_follows hk hafter l
      rw [bind_assoc] at hrest
      simp only [bind_assoc] at hrest
      exact hrest.le (Nat.le_succ k)
  | hold l => exact restOfHold_follows hk hafter l
  | stopped h =>
    by_cases hret : h = .returned
    · simp only [restOf, if_pos hret]
      exact follows_pure fun s => by rw [hret]
    · simp only [restOf, if_neg hret]
      exact follows_throw fun s => rfl

end rest

theorem mainLoop_follows {passes : Nat} (n : Nat) (hn : n ≤ passes) :
    Follows (stepper w) n (place .main) (Source.mainLoop w passes n)
      fun _ => place (.stopped .returned) := by
  induction n with
  | zero =>
    intro s
    refine .inr ⟨rfl, fun k hk => ?_⟩
    obtain rfl := Nat.le_zero.mp hk
    rfl
  | succ n ih =>
    rw [mainLoop_succ]
    have hturn : turn w .main = mainPass w >>= fun pc => pure pc := (bind_pure _).symm
    have hle : n ≤ passes := Nat.le_of_succ_le hn
    exact (turn_steps hturn).bind fun pc => restOf_follows hle (ih hle) pc

/-- The machine is the program: where the program ends, the machine stops in
the same state, and when the machine stops, an observation as long as its run
sees the program end. An observation that is too short sees it run on. -/
theorem source_machine (w : World γ) (table : FileTable) (opts : List Opt) (mem : Nat → UInt8)
    (gen : γ) (passes : Nat) :
    Ends (Source.main w passes opts) (initial table mem gen)
        (fun _ s => ∃ n, run w table opts mem gen n = ⟨s, .stopped .returned⟩)
        (fun h s => (∃ n, run w table opts mem gen n = ⟨s, .stopped h⟩) ∨
          (h = .spinning ∧ ∀ n, n ≤ passes → halted (run w table opts mem gen n).pc = none)) ∧
      ∀ n h, n ≤ passes → halted (run w table opts mem gen n).pc = some h →
        Ends (Source.main w passes opts) (initial table mem gen)
          (fun _ s => run w table opts mem gen n = ⟨s, .stopped .returned⟩)
          (fun e s => run w table opts mem gen n = ⟨s, .stopped e⟩) := by
  have hmain : Follows (stepper w) passes (place (.boot opts)) (Source.main w passes opts)
      fun _ => place (.stopped .returned) :=
    restOf_follows (Nat.le_refl passes) (mainLoop_follows passes (Nat.le_refl passes)) (.boot opts)
  have hends := hmain (initial table mem gen)
  refine ⟨hends, fun n h hn hstop => ?_⟩
  have hsame : ∀ (k : Nat) e s, run w table opts mem gen k = ⟨s, .stopped e⟩ →
      run w table opts mem gen n = ⟨s, .stopped e⟩ := by
    intro k e s hk
    have hend : halted (run w table opts mem gen k).pc = some e := by rw [hk]; rfl
    rcases Nat.le_total n k with hle | hle
    · rw [← run_halted hstop hle, hk]
    · rw [run_halted hend hle, hk]
  refine hends.mono ?_ ?_
  · rintro _ s ⟨k, hk⟩
    exact hsame k _ s hk
  · rintro e s (⟨k, hk⟩ | ⟨_, hrun⟩)
    · exact hsame k e s hk
    · exact absurd (hstop.symm.trans (hrun n hn)) (by simp)

end Gobbler.Proofs
