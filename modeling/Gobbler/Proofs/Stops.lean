import Gobbler.Proofs.Inside
import Gobbler.Proofs.Lines
import Gobbler.Proofs.Replay
import Gobbler.Proofs.Tracker

namespace Gobbler.Proofs
open Effect

variable {γ : Type} {w : World γ} {table : FileTable} {opts : List Opt} {mem : Nat → UInt8}
  {gen : γ} {b b' : Book}

/-- A turn of `main` calls `job` once more, or it ends the program. -/
theorem Move.of_main {pc : Pc} (h : Move w ⟨b, .main⟩ ⟨b', pc⟩) :
    b'.jobs.length = b.jobs.length + 1 ∨ ∃ h, pc = .stopped h := by
  have hnext : ∀ {c : Book}, Located b c → (called c).jobs.length = b.jobs.length + 1 :=
    fun hl => congrArg (fun jobs : List JobCall => jobs.length + 1) hl.jobs.1
  cases h with
  | idle hi => cases hi <;> exact .inr ⟨_, rfl⟩
  | finish | overrun => exact .inr ⟨_, rfl⟩
  | skip located _ _ | enter located _ _ _ | enterHalt located _ _ => exact .inl (hnext located)

theorem next_main (htime : ∀ m, Timely w (run w table opts mem gen m)) {n : Nat}
    (hpc : (run w table opts mem gen n).pc = .main) :
    (∃ m h, (run w table opts mem gen m).pc = .stopped h) ∨
      ∃ m, (run w table opts mem gen m).pc = .main ∧
        (run w table opts mem gen n).st.jobs.length < (run w table opts mem gen m).st.jobs.length := by
  have hmove := (run_turned w table opts mem gen n).move
  have hboot := hmove.booted
  rw [hpc] at hmove
  rcases hmove.of_main with hcall | hstop
  · have hcall' : (run w table opts mem gen (n + 1)).st.jobs.length =
        (run w table opts mem gen n).st.jobs.length + 1 := hcall
    obtain ⟨m, hm, hmain | hstop⟩ := back_in_main htime hboot
    · have hjobs : (run w table opts mem gen (n + 1)).st.jobs.length ≤
          (run w table opts mem gen m).st.jobs.length := run_jobs_le hm
      exact .inr ⟨m, hmain, by omega⟩
    · exact .inl ⟨m, hstop⟩
  · exact .inl ⟨n + 1, hstop⟩

/-- By induction on the calls of `job` that are left. -/
theorem stops_from_main (htime : ∀ m, Timely w (run w table opts mem gen m)) (k : Nat) {n : Nat}
    (hpc : (run w table opts mem gen n).pc = .main)
    (hk : phasesOf opts < (run w table opts mem gen n).st.jobs.length + k) :
    ∃ m h, (run w table opts mem gen m).pc = .stopped h := by
  induction k generalizing n with
  | zero =>
    have hbelow := (run_calling hpc).below
    omega
  | succ k ih =>
    obtain hstop | ⟨m, hmain, hless⟩ := next_main htime hpc
    · exact hstop
    · exact ih hmain (by omega)

/-- Why `main` returns: its vector is at its end, or its limits are reached. -/
def Complete (b : Book) : Prop :=
  (b.vector = true ∧ getline b.vectorStream = none) ∨ ∃ b', Located b b' ∧ Over b'

/-- Why the program stops, in its books before its last turn, on a machine that
gives what is asked of it. -/
inductive Cause (b : Book) : Halt → Prop
  | complete (done : Complete b) : Cause b .returned
  | options {h : Halt} (why : BootHalt h) : Cause b h
  | line {line rest : List Char} (vector : b.vector = true)
    (got : getline b.vectorStream = some (line, rest)) (unparsed : parseLine b.ipfvt line = none) :
    Cause b (.undefined .nullToken)
  | full (list : maxAllocPerSe ≤ (current b).length) : Cause b trackerFull
  | phases (last : (maxAlloc : Int) ≤ b.curr) : Cause b (.exit "reached maximum phase transitions\n")
  | index (away : ¬InTracker b) : Cause b (.undefined .trackIndex)
  | requests (many : 2 ^ 31 ≤ b.typeCnt + 1) : Cause b (.undefined .overflow)
  | localities (many : 2 ^ 31 ≤ b.curJob + 1) : Cause b (.undefined .overflow)

theorem Located.curr {c : Book} (h : Located b c) : c.curr = b.curr :=
  congrArg Ledger.curr h.ledger

theorem Move.cause {v v' : View} (h : Move w v v') (hw : Willing w) (hs : Sized w v'.book)
    (hrun : halted v.pc = none) {e : Halt} (hstop : v'.pc = .stopped e) : Cause v.book e := by
  cases h with
  | boot _ _ next _ =>
    rcases next with rfl | ⟨_, rfl, hh⟩
    · cases hstop
    · cases hstop
      exact .options hh
  | @idle b _ _ _ hi =>
    cases hi with
    | ended vector empty =>
      cases hstop
      exact .complete (.inl ⟨vector, empty⟩)
    | unread vector got unparsed =>
      cases hstop
      exact .line vector got unparsed
    | leaveHalt _ track =>
      cases hstop
      exact .index track
    | holdHalt why =>
      cases hstop
      cases why with
      | touch _ sized => exact absurd (sized hs) hw.not_forced
      | track hout => exact .index hout
    | stopped => cases hrun
    | _ => cases hstop
  | finish located stop =>
    cases hstop
    exact .complete (.inr ⟨_, located, stop⟩)
  | overrun located high =>
    cases hstop
    exact .localities (located.counted.2.1 ▸ high)
  | skip | enter | request => cases hstop
  | enterHalt located _ why =>
    cases hstop
    rcases why with hf | ⟨rfl, hlast⟩
    · exact absurd hf hw.not_forced
    · exact .phases (located.curr ▸ hlast)
  | trouble _ request served why =>
    cases hstop
    cases why with
    | touch _ sized => exact absurd (sized hs) hw.not_forced
    | track hout =>
      refine .index fun hin => hout ?_
      have hcurr := request.curr
      exact ⟨hcurr.symm ▸ hin.1, hcurr.symm ▸ hin.2⟩
  | aborted _ aborted =>
    cases hstop
    cases aborted with
    | early why _ =>
      cases why with
      | forced hf => exact absurd hf hw.not_forced
      | overflow hover => exact .requests hover
      | track hout => exact .index hout
    | full _ full => exact .full full

/-- The first turn after which the program is stopped. -/
theorem run_first_stop (h : ∃ m e, (run w table opts mem gen m).pc = .stopped e) :
    ∃ n e, halted (run w table opts mem gen n).pc = none ∧
      (run w table opts mem gen (n + 1)).pc = .stopped e := by
  obtain ⟨m, e, hm⟩ := h
  induction m with
  | zero => cases hm
  | succ m ih =>
    cases hpc : (run w table opts mem gen m).pc with
    | stopped e' =>
      rw [run_succ, step_halted (h := e') (by rw [hpc]; rfl)] at hm
      exact ih hm
    | _ => exact ⟨m, e, by rw [hpc]; rfl, hm⟩

/-- The CPU clock gets as far as a holding state for a whole time needs. -/
def TimelyWhole (w : World γ) (m : Machine γ) : Prop :=
  ∀ l, m.pc = .hold l → Whole l.execTime →
    ∃ last, ∀ k, last ≤ k → l.execTime ≤ l.run + (cpuTime w l.t k - l.now)

/-- The plain machine with a CPU clock that stands still after a hundred readings. -/
def stoppingWorld : World Unit :=
  { plainWorld with cpu := fun n => ⟨min n 100, 0, whole_nsec⟩ }

def stoppingRun (n : Nat) : Machine Unit :=
  run stoppingWorld smallTable [.p 3, .M 2, .e 1, .t 0] (fun _ => 0) () n

theorem stoppingWorld_willing : Willing stoppingWorld :=
  ⟨draws_of_zero (fun _ => rfl) (by decide), fun _ => rfl, fun _ => by simp [stoppingWorld, plainWorld],
    fun _ => rfl, fun _ => rfl⟩

theorem stoppingRun_stopped : halted (stoppingRun 13).pc = some .returned := by decide +kernel

/-- What holds of the states before its end holds all along the run. -/
theorem stoppingRun_all {P : Machine Unit → Prop} (h : ∀ k, k < 14 → P (stoppingRun k)) (n : Nat) :
    P (stoppingRun n) := by
  by_cases hn : n < 14
  · exact h n hn
  · have heq : stoppingRun n = stoppingRun 13 := run_halted stoppingRun_stopped (by omega)
    rw [heq]
    exact h 13 (by decide)

theorem stoppingRun_placed (n : Nat) : Placed (stoppingRun n).st.toLedger := by
  have hall : ∀ k, k < 14 →
      ((allRecords (stoppingRun k).st.toLedger).Pairwise fun r r' => r.addr + r.len ≤ r'.addr) ∧
        ∀ r ∈ allRecords (stoppingRun k).st.toLedger, r.len < 2 ^ 63 := by
    decide +kernel
  exact stoppingRun_all (P := fun m => Placed m.st.toLedger)
    (fun k hk => .of_ascending (hall k hk).1 (hall k hk).2) n

/-- The time that a holding state asks for is over when the clock stands still. -/
def OverAt (now : ℚ) : Pc → Prop
  | .hold l => l.t = .secs ∧ l.execTime ≤ l.run + (now - l.now)
  | _ => True

instance (now : ℚ) : (pc : Pc) → Decidable (OverAt now pc)
  | .hold l => inferInstanceAs (Decidable (l.t = .secs ∧ l.execTime ≤ l.run + (now - l.now)))
  | .boot _ | .main | .trans _ _ _ | .stopped _ => inferInstanceAs (Decidable True)

theorem stoppingRun_timely (n : Nat) : TimelyWhole stoppingWorld (stoppingRun n) := by
  have hall : ∀ k, k < 14 → OverAt 100 (stoppingRun k).pc := by decide +kernel
  have hover := stoppingRun_all (P := fun m => OverAt 100 m.pc) hall n
  intro l hpc _
  rw [hpc] at hover
  obtain ⟨hunit, hdone⟩ := hover
  refine ⟨100, fun k hk => ?_⟩
  have hclock : cpuTime stoppingWorld .secs k = 100 := by
    rw [cpuTime_secs]
    · simp [stoppingWorld, hk]
    · simp [stoppingWorld]
  rw [hunit, hclock]
  exact hdone

end Gobbler.Proofs
