import Gobbler.Proofs.Lines
import Gobbler.Proofs.Phases
import Gobbler.Proofs.Trace
import Gobbler.Proofs.Vector

namespace Gobbler.Proofs

variable {γ : Type} {w : World γ} {table : FileTable} {opts : List Opt} {mem : Nat → UInt8}
  {gen : γ} {b : Book} {isIpfvt : Bool} {ps : List VectorLine}

/-- The call of `job` that a line asks for. -/
def VectorLine.call (isIpfvt : Bool) (p : VectorLine) : JobCall :=
  ⟨p.wcet, p.count isIpfvt, wrap (p.count isIpfvt * pageSize)⟩

/-- The options ask for this vector, in its format. -/
def ReplayMode (opts : List Opt) (isIpfvt : Bool) (ps : List VectorLine) : Prop :=
  vectorOf opts = (true, vectorText isIpfvt ps) ∧ opts.foldl traceSet false = isIpfvt

/-- The lines were passed to `job` one by one, up to those the stream still has. -/
structure Replayed (isIpfvt : Bool) (ps : List VectorLine) (b : Book) : Prop where
  trace : b.ipfvt = isIpfvt
  lines : ∃ done rest, ps = done ++ rest ∧ b.jobs.reverse = done.map (VectorLine.call isIpfvt) ∧
    b.vectorStream = vectorText isIpfvt rest

/-- The next line of the vector, as `main` finds it. -/
theorem Located.of_vector {b' : Book} {p : VectorLine} {rest : List VectorLine}
    (h : Located b b') (hv : b.vector = true) (ht : b.ipfvt = isIpfvt)
    (hs : b.vectorStream = vectorText isIpfvt (p :: rest)) :
    ∃ rows, b' =
      limited (relined b (vectorText isIpfvt rest) (p.count isIpfvt) (p.wcet : ℚ)) rows := by
  have hg := getline_text isIpfvt p rest
  have hp := parseLine_text isIpfvt p
  rw [← hs] at hg
  rw [← ht] at hp
  exact ht ▸ h.of_line hv (ht ▸ hg) hp

theorem getline_end (isIpfvt : Bool) : getline (vectorText isIpfvt []) = none := rfl

theorem vectorLines_text (isIpfvt : Bool) (ps : List VectorLine) :
    vectorLines (vectorText isIpfvt ps) = ps.map fun p => p.text isIpfvt ++ ['\n'] := by
  induction ps with
  | nil => rfl
  | cons p ps ih => rw [vectorLines_some (getline_text isIpfvt p ps), ih, List.map_cons]

theorem CallFollows.of_text (hmode : ReplayMode opts isIpfvt ps) {i : Nat} {j : JobCall}
    (h : CallFollows opts i j) : ∃ p, ps[i]? = some p ∧ j = p.call isIpfvt := by
  obtain ⟨hvector, htrace⟩ := hmode
  rw [CallFollows, hvector, if_pos rfl] at h
  obtain ⟨line, hline, hparsed, hbytes⟩ := h
  rw [vectorLines_text, List.getElem?_map, Option.map_eq_some_iff] at hline
  obtain ⟨p, hp, rfl⟩ := hline
  rw [traceOf, htrace, parseLine_text, Option.some.injEq, Prod.mk.injEq] at hparsed
  obtain ⟨hcount, htime⟩ := hparsed
  refine ⟨p, hp, ?_⟩
  rw [VectorLine.call, hcount, htime, ← hbytes]

theorem run_replayed (hmode : ReplayMode opts isIpfvt ps) {n : Nat}
    (hpc : (run w table opts mem gen n).pc = .main) :
    (run w table opts mem gen n).st.vector = true ∧
      Replayed isIpfvt ps (run w table opts mem gen n).st.toBook := by
  have h := run_vectorRead w table opts mem gen n
  have hread := h.reading (by simp [view, hpc, halted]) (by simp [view, hpc])
  have hv : (run w table opts mem gen n).st.vector = true :=
    hread.vector.trans (congrArg Prod.fst hmode.1)
  have hlines := hread.lines hv
  rw [hmode.1, vectorLines_text, ← List.map_drop, ← vectorLines_text] at hlines
  let k := (run w table opts mem gen n).st.jobs.length
  refine ⟨hv, hread.trace.trans hmode.2, ps.take k, ps.drop k, (List.take_append_drop k ps).symm, ?_, ?_⟩
  · apply List.ext_getElem?
    intro i
    by_cases hi : i < k
    · have hlt : i < (run w table opts mem gen n).st.jobs.reverse.length := by simpa using hi
      have hj := List.getElem?_eq_getElem hlt
      obtain ⟨p, hp, heq⟩ := (h.calls i _ hj).of_text hmode
      rw [List.getElem?_map, List.getElem?_take_of_lt hi, hp, Option.map_some, ← heq]
      exact hj
    · rw [List.getElem?_eq_none (by simpa using hi), List.getElem?_eq_none (by simp; omega)]
  · have hflat := congrArg List.flatten hlines
    rwa [vectorLines_flatten, vectorLines_flatten] at hflat

theorem calls_length {done : List VectorLine}
    (h : b.jobs.reverse = done.map (VectorLine.call isIpfvt)) : b.jobs.length = done.length := by
  rw [← List.length_reverse, h, List.length_map]

theorem Replayed.length (h : Replayed isIpfvt ps b) : b.jobs.length ≤ ps.length ∧
    (b.jobs.length = ps.length → b.jobs.reverse = ps.map (VectorLine.call isIpfvt) ∧
      b.vectorStream = vectorText isIpfvt []) := by
  obtain ⟨_, done, rest, hps, hjobs, hstream⟩ := h
  have hlen := calls_length hjobs
  rw [hps, List.length_append]
  refine ⟨by omega, fun hall => ?_⟩
  have hrest : rest = [] := List.length_eq_zero_iff.mp (by omega)
  subst hrest
  rw [List.append_nil]
  exact ⟨hjobs, hstream⟩

/-- As long as lines are left, `main` calls `job`. -/
theorem Move.of_next {b' : Book} {pc : Pc} (h : Move w ⟨b, .main⟩ ⟨b', pc⟩)
    (hcall : Calling opts b) (hv : b.vector = true) (hr : Replayed isIpfvt ps b)
    (hmore : b.jobs.length < ps.length) (hphases : ps.length < phasesOf opts)
    (hlimit : usedPages b.toLedger ≤ b.maxLimit) (herror : ∀ h, pc = .stopped h → h = .returned) :
    b'.jobs.length = b.jobs.length + 1 := by
  obtain ⟨ht, done, rest, hps, hjobs, hstream⟩ := hr
  have hlen := calls_length hjobs
  cases rest with
  | nil =>
    rw [hps, List.append_nil] at hmore
    omega
  | cons p rest =>
    have hgo : ∀ {c : Book}, Located b c → ¬Over c := by
      intro c hl
      obtain ⟨rows, rfl⟩ := hl.of_vector hv ht hstream
      refine not_or.mpr ⟨?_, ?_⟩
      · have hcur := hcall.curJob
        have hmax := hcall.phases
        simp only [limited, relined]
        omega
      · have hno := hcall.nomore
        simp only [limited, relined, hno, Bool.false_or, decide_eq_true_eq]
        exact Nat.not_lt_of_le hlimit
    cases h with
    | idle hi =>
      cases hi with
      | ended _ empty =>
        rw [hstream, getline_text] at empty
        cases empty
      | unread => cases herror _ rfl
    | finish located stop => exact absurd stop (hgo located)
    | overrun => cases herror _ rfl
    | skip located _ _ | enter located _ _ _ | enterHalt located _ _ =>
      exact congrArg (fun jobs : List JobCall => jobs.length + 1) located.jobs.1

theorem Move.jobs_le {v v' : View} (h : Move w v v') :
    v.book.jobs.length ≤ v'.book.jobs.length := by
  have hcalled : ∀ {b c : Book}, Located b c → b.jobs.length ≤ (called c).jobs.length := by
    intro b c hl
    rw [← hl.jobs.1]
    exact Nat.le_succ _
  cases h with
  | boot configured _ _ _ => exact Nat.le_of_eq (congrArg List.length configured.jobs.symm)
  | idle hi => cases hi <;> exact Nat.le_refl _
  | finish located _ | overrun located _ =>
    exact Nat.le_of_eq (congrArg List.length located.jobs.1.symm)
  | skip located _ _ | enter located _ _ _ | enterHalt located _ _ => exact hcalled located
  | request | trouble | aborted => exact Nat.le_refl _

theorem run_jobs_le {n m : Nat} (h : n ≤ m) :
    (run w table opts mem gen n).st.jobs.length ≤ (run w table opts mem gen m).st.jobs.length := by
  induction h with
  | refl => exact Nat.le_refl _
  | step _ ih => exact Nat.le_trans ih (run_turned w table opts mem gen _).move.jobs_le

/-- The run ends with no error, and within the page limit. -/
structure Clean (w : World γ) (m : Machine γ) : Prop where
  error : ∀ h, m.pc = .stopped h → h = .returned
  limit : m.pc = .main → trackedPages w.pageSize m.st.toLedger ≤ m.st.maxLimit
  clock : Timely w m

section replay

variable (hmode : ReplayMode opts isIpfvt ps) (hphases : ps.length < phasesOf opts)
  (hclean : ∀ m, Clean w (run w table opts mem gen m))

include hmode hphases hclean in
theorem replay_next {n : Nat} (hpc : (run w table opts mem gen n).pc = .main)
    (hmore : (run w table opts mem gen n).st.jobs.length < ps.length) :
    (run w table opts mem gen (n + 1)).st.jobs.length =
      (run w table opts mem gen n).st.jobs.length + 1 := by
  obtain ⟨hv, hr⟩ := run_replayed hmode hpc
  have hm := (run_turned w table opts mem gen n).move
  have hlimit := (hclean n).limit hpc
  rw [hpc] at hm
  rw [← run_used hpc] at hlimit
  exact hm.of_next (run_calling hpc) hv hr hmore hphases hlimit (hclean (n + 1)).error

include hmode in
/-- A replay that has passed on all its lines stops at the end of the vector. -/
theorem replay_last {n : Nat} (hpc : (run w table opts mem gen n).pc = .main)
    (hall : (run w table opts mem gen n).st.jobs.length = ps.length) :
    (run w table opts mem gen (n + 1)).pc = .stopped .returned ∧
      (run w table opts mem gen (n + 1)).st.jobs.reverse = ps.map (VectorLine.call isIpfvt) ∧
      (run w table opts mem gen (n + 1)).st.vectorStream = [] := by
  obtain ⟨hv, hr⟩ := run_replayed hmode hpc
  obtain ⟨hjobs, hstream⟩ := hr.length.2 hall
  have hm := (run_turned w table opts mem gen n).move
  rw [hpc] at hm
  obtain ⟨hbook, hstop⟩ := hm.of_end hv (hstream ▸ getline_end isIpfvt)
  have hjobs' := congrArg Book.jobs hbook
  have hstream' := congrArg Book.vectorStream hbook
  exact ⟨hstop, hjobs' ▸ hjobs, hstream'.trans hstream⟩

include hmode hphases hclean in
/-- A replay does not stop before its last line. -/
theorem replay_stopped {n : Nat} (hstop : (run w table opts mem gen n).pc = .stopped .returned) :
    ∃ m, (run w table opts mem gen m).pc = .main ∧
      (run w table opts mem gen m).st.jobs.length = ps.length := by
  obtain ⟨m, hpc, heq⟩ := run_returned hstop
  have hr := (run_replayed hmode hpc).2
  have hm := (run_turned w table opts mem gen m).move
  rw [heq] at hstop
  rw [hpc, hstop] at hm
  obtain ⟨hsame, _⟩ := (run_calling hpc).ends hm
  refine ⟨m, hpc, ?_⟩
  by_contra hne
  have hless : (run w table opts mem gen m).st.jobs.length < ps.length :=
    Nat.lt_of_le_of_ne hr.length.1 hne
  have hnext := replay_next hmode hphases hclean hpc hless
  rw [hsame] at hnext
  omega

include hmode hphases hclean in
/-- By induction on the lines left: every line brings the program back to `main`. -/
theorem replay_all (k : Nat) {n : Nat} (hpc : (run w table opts mem gen n).pc = .main)
    (hk : ps.length ≤ (run w table opts mem gen n).st.jobs.length + k) :
    ∃ m, (run w table opts mem gen m).pc = .main ∧
      (run w table opts mem gen m).st.jobs.length = ps.length := by
  have hle := (run_replayed hmode hpc).2.length.1
  induction k generalizing n with
  | zero => exact ⟨n, hpc, by omega⟩
  | succ k ih =>
    by_cases hmore : (run w table opts mem gen n).st.jobs.length < ps.length
    · have hnext := replay_next hmode hphases hclean hpc hmore
      have hboot : ∀ os, (run w table opts mem gen (n + 1)).pc ≠ .boot os :=
        (run_turned w table opts mem gen n).move.booted
      obtain ⟨m, hm, hmain | ⟨h, hstop⟩⟩ := back_in_main (fun m => (hclean m).clock) hboot
      · have hjobs : (run w table opts mem gen (n + 1)).st.jobs.length ≤
            (run w table opts mem gen m).st.jobs.length := run_jobs_le hm
        exact ih hmain (by omega) (run_replayed hmode hmain).2.length.1
      · rw [(hclean m).error h hstop] at hstop
        exact replay_stopped hmode hphases hclean hstop
    · exact ⟨n, hpc, by omega⟩

end replay

/-- A vector written line by line is replayed line by line: each line is one
call of `job`, with its time and its budget, and the run ends with the vector. -/
theorem vector_replay (w : World γ) (table : FileTable) (opts : List Opt) (mem : Nat → UInt8)
    (gen : γ) (isIpfvt : Bool) (ps : List VectorLine) (hmode : ReplayMode opts isIpfvt ps)
    (hphases : ps.length < phasesOf opts)
    (hclean : ∀ m, Clean w (run w table opts mem gen m)) :
    ∃ m, (run w table opts mem gen m).pc = .stopped .returned ∧
      (run w table opts mem gen m).st.jobs.reverse = ps.map (fun p =>
        ⟨p.wcet, p.count isIpfvt, wrap (p.count isIpfvt * 4096)⟩) ∧
      (run w table opts mem gen m).st.vectorStream = [] := by
  have hboot : ∀ os, (run w table opts mem gen 1).pc ≠ .boot os :=
    (run_turned w table opts mem gen 0).move.booted
  have hend : ∃ m, (run w table opts mem gen m).pc = .main ∧
      (run w table opts mem gen m).st.jobs.length = ps.length := by
    obtain ⟨n, _, hmain | ⟨h, hstop⟩⟩ := back_in_main (fun m => (hclean m).clock) hboot
    · exact replay_all hmode hphases hclean ps.length hmain (Nat.le_add_left _ _)
    · rw [(hclean n).error h hstop] at hstop
      exact replay_stopped hmode hphases hclean hstop
  obtain ⟨m, hmain, hall⟩ := hend
  exact ⟨m + 1, replay_last hmode hmain hall⟩

/-- Two lines, one with a blank, that ask for no time. -/
def twoLines : List VectorLine :=
  [⟨1, 0, false, by decide, by decide⟩, ⟨2, 0, true, by decide, by decide⟩]

/-- The run on these lines. -/
def twoRun (m : Nat) : Machine Unit :=
  run calmWorld smallTable [.V (some (vectorText false twoLines)), .t 0] (fun _ => 0) () m

theorem twoRun_stopped : halted (twoRun 11).pc = some .returned := by
  decide +kernel

theorem twoRun_checks : ∀ m, m < 12 →
    (halted (twoRun m).pc = none ∨ halted (twoRun m).pc = some .returned) ∧
      trackedPages 4096 (twoRun m).st.toLedger ≤ (twoRun m).st.maxLimit ∧
      untimed (twoRun m).pc = true := by
  decide +kernel

theorem twoRun_clean (m : Nat) : Clean calmWorld (twoRun m) := by
  have hall : ∀ k, k < 12 → Clean calmWorld (twoRun k) := by
    intro k hk
    obtain ⟨hhalt, hlimit, huntimed⟩ := twoRun_checks k hk
    refine ⟨fun h hstop => ?_, fun _ => hlimit, fun l hl => ⟨0, fun i _ => ?_⟩⟩
    · simpa [hstop, halted] using hhalt
    · simp only [hl, untimed, Bool.and_eq_true, decide_eq_true_eq] at huntimed
      rw [huntimed.1.1, huntimed.1.2, huntimed.2, zero_add, sub_zero]
      exact Nat.cast_nonneg _
  by_cases hm : m < 12
  · exact hall m hm
  · have hstop : twoRun m = twoRun 11 := run_halted twoRun_stopped (by omega)
    rw [hstop]
    exact hall 11 (by decide)

theorem vector_replay_two :
    ∃ m, (twoRun m).pc = .stopped .returned ∧
      (twoRun m).st.jobs.reverse = twoLines.map (fun p =>
        ⟨p.wcet, p.count false, wrap (p.count false * 4096)⟩) ∧
      (twoRun m).st.vectorStream = [] :=
  vector_replay calmWorld smallTable [.V (some (vectorText false twoLines)), .t 0] (fun _ => 0) ()
    false twoLines ⟨rfl, rfl⟩ (by decide) twoRun_clean

end Gobbler.Proofs
