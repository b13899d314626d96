import Gobbler.Proofs.Counters
import Gobbler.Proofs.Limit

namespace Gobbler.Proofs

variable {γ : Type} {w : World γ} {table : FileTable} {opts : List Opt} {mem : Nat → UInt8}
  {gen : γ} {b : Book}

/-- The lines of a text; the last one may lack its newline. -/
def lineCount : List Char → Nat
  | [] => 0
  | ['\n'] => 1
  | [_] => 1
  | c :: d :: cs => if c = '\n' then lineCount (d :: cs) + 1 else lineCount (d :: cs)

theorem lineCount_newline (s : List Char) : lineCount ('\n' :: s) = lineCount s + 1 := by
  cases s <;> simp [lineCount]

/-- The first line ends at the first newline, if there is one. -/
theorem lineCount_first {s : List Char} (h : s ≠ []) :
    lineCount s = match s.dropWhile (· ≠ '\n') with
      | [] => 1
      | _ :: rest => lineCount rest + 1 := by
  induction s with
  | nil => exact absurd rfl h
  | cons c cs ih =>
    by_cases hc : c = '\n'
    · subst hc
      simp [lineCount_newline]
    · have hdrop : (c :: cs).dropWhile (· ≠ '\n') = cs.dropWhile (· ≠ '\n') := by
        simp [hc]
      rw [hdrop]
      cases cs with
      | nil => simp [lineCount]
      | cons d ds =>
        rw [lineCount, if_neg hc]
        exact ih (by simp)

theorem getline_some {s line rest : List Char} (h : getline s = some (line, rest)) :
    lineCount s = lineCount rest + 1 := by
  by_cases hs : s = []
  · rw [getline, if_pos hs] at h
    cases h
  · rw [lineCount_first hs]
    rw [getline, if_neg hs] at h
    cases hd : s.dropWhile (· ≠ '\n') with
    | nil =>
      simp only [hd] at h
      cases h
      rfl
    | cons c cs =>
      simp only [hd] at h
      cases h
      rfl

theorem getline_none {s : List Char} (h : getline s = none) : lineCount s = 0 := by
  by_cases hs : s = []
  · rw [hs]
    rfl
  · rw [getline, if_neg hs] at h
    cases hd : s.dropWhile (· ≠ '\n') with
    | nil =>
      simp only [hd] at h
      cases h
    | cons c cs =>
      simp only [hd] at h
      cases h

/-- The vector that the options name, if there is one, and its bytes. -/
def vectorOf (opts : List Opt) : Bool × List Char := opts.foldl vectorSet (false, [])

/-- The value of the last `-p`. -/
def phasesOf (opts : List Opt) : Nat := opts.foldl phasesSet maxAlloc

/-- While the program runs its localities, it has called `job` less often than
`-p` says, and once for every line of the vector read so far. -/
structure Calling (opts : List Opt) (b : Book) : Prop where
  phases : b.maxPhase = phasesOf opts
  curJob : b.curJob = b.jobs.length
  below : b.jobs.length ≤ phasesOf opts - 1
  vector : b.vector = (vectorOf opts).1
  lines : b.vector = true →
    lineCount b.vectorStream + b.jobs.length = lineCount (vectorOf opts).2
  nomore : b.allocNomore = false

structure Numbered (opts : List Opt) (v : View) : Prop where
  booting : ∀ os, v.pc = .boot os → os = opts ∧ (v.book.maxPhase = maxAlloc ∧ v.book.curJob = 0 ∧
    v.book.jobs = [] ∧ v.book.vector = false ∧ v.book.vectorStream = [] ∧
    v.book.allocNomore = false)
  calling : halted v.pc = none → (∀ os, v.pc ≠ .boot os) → Calling opts v.book

theorem Calling.of_boot {b' : Book} (hb : b.maxPhase = maxAlloc ∧ b.curJob = 0 ∧ b.jobs = [] ∧
    b.vector = false ∧ b.vectorStream = [] ∧ b.allocNomore = false) (hc : Configured b b')
    (hs : Started opts b b') : Calling opts b' := by
  obtain ⟨hmax, hcur, hjobs, hvec, hstream, hno⟩ := hb
  have hphases := hs.phases
  have hvector := hs.vector
  rw [hmax] at hphases
  rw [hvec, hstream] at hvector
  have hjobs' := hc.jobs.trans hjobs
  refine ⟨hphases, ?_, ?_, congrArg Prod.fst hvector, fun _ => ?_, hc.nomore.trans hno⟩
  · rw [hc.curJob, hcur, hjobs', List.length_nil]
  · rw [hjobs']
    exact Nat.zero_le _
  · rw [hjobs']
    exact congrArg (fun v : Bool × List Char => lineCount v.2) hvector

/-- A locality that begins, or is skipped, is the next one. -/
theorem Calling.called {b' : Book} (h : Calling opts b) (hl : Located b b') (hgo : ¬Over b') :
    Calling opts (called b') := by
  obtain ⟨hmax, hno⟩ := not_or.mp hgo
  have hphases := h.phases
  have hcur := h.curJob
  have hbelow := h.below
  obtain ⟨rows, hvec | @⟨line, rest, cnt, t, hvec, hgot, hparse⟩⟩ := hl
  · have hmax' : ¬b.maxPhase ≤ b.curJob + 1 := hmax
    refine ⟨h.phases, ?_, ?_, h.vector, ?_, (Bool.not_eq_true _).mp hno⟩
    · simp only [Proofs.called, limited, List.length_cons, hcur]
    · simp only [Proofs.called, limited, List.length_cons]
      omega
    · intro hv
      exact absurd (hv.symm.trans hvec) Bool.noConfusion
  · have hmax' : ¬b.maxPhase ≤ b.curJob + 1 := hmax
    refine ⟨h.phases, ?_, ?_, h.vector, ?_, (Bool.not_eq_true _).mp hno⟩
    · simp only [Proofs.called, limited, relined, List.length_cons, hcur]
    · simp only [Proofs.called, limited, relined, List.length_cons]
      omega
    · intro _
      have hlines := h.lines hvec
      rw [getline_some hgot] at hlines
      simp only [Proofs.called, limited, relined, List.length_cons]
      omega

theorem Numbered.move {v v' : View} (h : Numbered opts v) (hm : Move w v v') : Numbered opts v' := by
  refine ⟨fun os ho => absurd ho (hm.booted os), fun hrun hnot => ?_⟩
  have hcall := h.calling (hm.running hrun)
  cases hm with
  | boot configured _ next started =>
    rcases next with rfl | ⟨_, rfl, _⟩
    · obtain ⟨hos, hb⟩ := h.booting _ rfl
      subst hos
      exact .of_boot hb configured (started rfl).toStarted
    · cases hrun
  | idle hi =>
    cases hi with
    | leave _ _ | hold _ _ | held =>
      obtain ⟨h1, h2, h3, h4, h5, h6⟩ := hcall (by simp)
      exact ⟨h1, h2, h3, h4, h5, h6⟩
    | _ => cases hrun
  | skip located go _ =>
    obtain ⟨h1, h2, h3, h4, h5, h6⟩ := (hcall (by simp)).called located go
    exact ⟨h1, h2, h3, h4, h5, h6⟩
  | enter located go _ _ =>
    obtain ⟨h1, h2, h3, h4, h5, h6⟩ := (hcall (by simp)).called located go
    exact ⟨h1, h2, h3, h4, h5, h6⟩
  | request =>
    obtain ⟨h1, h2, h3, h4, h5, h6⟩ := hcall (by simp)
    exact ⟨h1, h2, h3, h4, h5, h6⟩
  | finish | overrun | enterHalt | trouble | aborted => cases hrun

theorem run_numbered (w : World γ) (table : FileTable) (opts : List Opt) (mem : Nat → UInt8)
    (gen : γ) (n : Nat) : Numbered opts (view (run w table opts mem gen n)) := by
  refine run_invariant w table opts mem gen ?_ (fun _ _ _ _ h hm => h.move hm) n
  refine ⟨fun os ho => ?_, fun _ hnot => absurd rfl (hnot opts)⟩
  cases ho
  exact ⟨rfl, rfl, rfl, rfl, rfl, rfl, rfl⟩

theorem run_calling {n : Nat} (hpc : (run w table opts mem gen n).pc = .main) :
    Calling opts (run w table opts mem gen n).st.toBook :=
  (run_numbered w table opts mem gen n).calling (by simp [view, hpc, halted]) (by simp [view, hpc])

/-- Only `main` ends the program without an error. -/
theorem Move.of_returned {v v' : View} (h : Move w v v') (hret : v'.pc = .stopped .returned) :
    v.pc = .main ∨ v.pc = .stopped .returned := by
  cases h with
  | boot _ _ next _ =>
    rcases next with rfl | ⟨_, rfl, hh⟩
    · cases hret
    · cases hret
      cases hh
  | idle hi =>
    cases hi with
    | ended => exact .inl rfl
    | stopped => exact .inr hret
    | holdHalt why =>
      cases hret
      cases why with
      | touch why _ => cases why
    | _ => cases hret
  | trouble _ _ _ why =>
    cases hret
    cases why with
    | touch why _ => cases why
  | aborted _ aborted =>
    cases hret
    cases aborted with
    | early why _ =>
      cases why with
      | forced why => cases why
  | request => cases hret
  | finish | overrun | skip | enter | enterHalt => exact .inl rfl

/-- A run that ends without an error ends in `main`. -/
theorem run_returned {n : Nat} (h : (run w table opts mem gen n).pc = .stopped .returned) :
    ∃ m, (run w table opts mem gen m).pc = .main ∧
      run w table opts mem gen n = run w table opts mem gen (m + 1) := by
  induction n with
  | zero => cases h
  | succ n ih =>
    rcases (run_turned w table opts mem gen n).move.of_returned h with hmain | hstop
    · exact ⟨n, hmain, rfl⟩
    · obtain ⟨m, hmain, heq⟩ := ih hstop
      have hsame : run w table opts mem gen (n + 1) = run w table opts mem gen n :=
        run_halted (congrArg halted hstop) (Nat.le_succ n)
      exact ⟨m, hmain, hsame.trans heq⟩

/-- `main` ends for one of three reasons. -/
theorem Calling.ends {b' : Book} (h : Calling opts b)
    (hm : Move w ⟨b, .main⟩ ⟨b', .stopped .returned⟩) :
    b'.jobs = b.jobs ∧ ((b.vector = true ∧ b.jobs.length = lineCount (vectorOf opts).2) ∨
      b.maxLimit < usedPages b.toLedger ∨ b.jobs.length = phasesOf opts - 1) := by
  cases hm with
  | idle hi =>
    cases hi with
    | ended vector empty =>
      have hlines := h.lines vector
      rw [getline_none empty] at hlines
      exact ⟨rfl, .inl ⟨vector, by omega⟩⟩
  | finish located stop =>
    have hbelow := h.below
    have hphases := h.phases
    have hcur := h.curJob
    have hno := h.nomore
    have hkept : b'.jobs = b.jobs ∧ b'.maxPhase = b.maxPhase ∧ b'.curJob = b.curJob + 1 ∧
        b'.allocNomore = (b.allocNomore || decide (b.maxLimit < usedPages b.toLedger)) := by
      obtain ⟨rows, _ | _⟩ := located <;> exact ⟨rfl, rfl, rfl, rfl⟩
    obtain ⟨hjobs, hmax, hcurJob, hmore⟩ := hkept
    rcases stop with hstop | hstop
    · exact ⟨hjobs, .inr (.inr (by omega))⟩
    · rw [hmore, hno, Bool.false_or, decide_eq_true_eq] at hstop
      exact ⟨hjobs, .inr (.inl hstop)⟩
  | enterHalt _ _ why =>
    rcases why with hf | ⟨hh, _⟩
    · cases hf
    · cases hh

/-- Past the page limit `main` calls no `job`. -/
theorem Move.past_limit {v' : View} (h : Move w ⟨b, .main⟩ v')
    (hl : b.maxLimit < usedPages b.toLedger) : halted v'.pc ≠ none := by
  have hno : ∀ {c : Book}, Located b c → Over c := by
    intro c hloc
    by_contra hgo
    have hunder := hloc.under hgo
    rw [hloc.ledger] at hunder
    obtain ⟨_, _ | _⟩ := hloc <;> exact absurd hl (Nat.not_lt_of_le hunder)
  cases h with
  | idle hi => cases hi <;> simp [halted]
  | finish | overrun | enterHalt => simp [halted]
  | skip located go | enter located go => exact absurd (hno located) go

/-- The pages of all records, as an unsigned long. -/
def trackedPages (ps : Nat) (l : Ledger) : Nat :=
  wrap (pagesOf ps .file (allRecords l) + pagesOf ps .anon (allRecords l))

section count

variable (w table opts mem gen)

/-- The first `k` localities allocate more pages than `-l` allows. -/
def Exceeded (k : Nat) : Prop :=
  ∃ m, (run w table opts mem gen m).pc = .main ∧ (run w table opts mem gen m).st.jobs.length = k ∧
    (run w table opts mem gen m).st.maxLimit <
      trackedPages w.pageSize (run w table opts mem gen m).st.toLedger

/-- What ends a run after `k` localities, apart from `-p`. -/
def Bound (k : Nat) : Prop :=
  ((vectorOf opts).1 = true ∧ k = lineCount (vectorOf opts).2) ∨ Exceeded w table opts mem gen k

end count

theorem run_used {m : Nat} (hpc : (run w table opts mem gen m).pc = .main) :
    usedPages (run w table opts mem gen m).st.toLedger =
      trackedPages w.pageSize (run w table opts mem gen m).st.toLedger := by
  have h := run_accounts w table opts mem gen m (by rw [hpc]; rfl)
  rw [usedPages, h.file, h.anon, wrap_add, wrap_add_right, trackedPages]

/-- The calls of `job` are one fewer than `-p` says, unless something else ends the run first. -/
theorem locality_count {n : Nat} (hstop : (run w table opts mem gen n).pc = .stopped .returned) :
    IsLeast {k | k = phasesOf opts - 1 ∨ Bound w table opts mem gen k}
      (run w table opts mem gen n).st.jobs.length := by
  obtain ⟨m, hmain, heq⟩ := run_returned hstop
  have hcall := run_calling hmain
  have hmove := (run_turned w table opts mem gen m).move
  rw [heq] at hstop
  rw [hmain, hstop] at hmove
  obtain ⟨hjobs, hwhy⟩ := hcall.ends hmove
  rw [heq, hjobs]
  refine ⟨?_, ?_⟩
  · rcases hwhy with ⟨hvec, hlines⟩ | hlimit | hphases
    · exact .inr (.inl ⟨hcall.vector.symm.trans hvec, hlines⟩)
    · refine .inr (.inr ⟨m, hmain, rfl, ?_⟩)
      rwa [← run_used hmain]
    · exact .inl hphases
  · rintro k (rfl | ⟨hvec, rfl⟩ | ⟨m', hmain', rfl, hlimit⟩)
    · exact hcall.below
    · have hlines := hcall.lines (hcall.vector.trans hvec)
      omega
    · rw [← run_used hmain'] at hlimit
      have hmove' := (run_turned w table opts mem gen m').move
      rw [hmain'] at hmove'
      have hhalt := hmove'.past_limit hlimit
      -- a run passes the limit in `main` once, and `main` ends it there
      rcases Nat.lt_trichotomy m m' with hlt | rfl | hlt
      · have hsame : run w table opts mem gen m' = run w table opts mem gen (m + 1) :=
          run_halted (congrArg halted hstop) hlt
        rw [hsame, hstop] at hmain'
        cases hmain'
      · exact Nat.le_refl _
      · obtain ⟨h, hh⟩ := Option.ne_none_iff_exists'.mp hhalt
        have hsame := run_halted hh hlt
        rw [hsame] at hmain
        simp [hmain, halted] at hh

theorem isLeast_pred {P : Nat → Prop} {n j : Nat} (hn : 1 ≤ n)
    (h : IsLeast {k | k = n - 1 ∨ P k} j) :
    IsLeast {k | k = n ∨ P k} j ↔ ∃ k, k < n ∧ P k := by
  obtain ⟨hmem, hleast⟩ := h
  have hlow : j ≤ n - 1 := hleast (.inl rfl)
  constructor
  · intro hj
    rcases hj.1 with hj | hj
    · omega
    · exact ⟨j, by omega, hj⟩
  · intro hex
    obtain ⟨k, hk, hP⟩ := hex
    constructor
    · rcases hmem with hj | hj
      · have hle : j ≤ k := hleast (.inr hP)
        have heq : j = k := by omega
        exact .inr (heq ▸ hP)
      · exact .inr hj
    · rintro i (rfl | hi)
      · omega
      · exact hleast (.inr hi)

/-- With `-p N` at most `N - 1` localities run: the count is the least of `N`
and the other bounds just when one of these is below `N`. -/
theorem locality_count_least (w : World γ) (table : FileTable) (opts : List Opt)
    (mem : Nat → UInt8) (gen : γ) (n : Nat)
    (hstop : (run w table opts mem gen n).pc = .stopped .returned) (hN : 1 ≤ phasesOf opts) :
    IsLeast {k | k = phasesOf opts ∨ Bound w table opts mem gen k}
        (run w table opts mem gen n).st.jobs.length ↔
      ∃ k, k < phasesOf opts ∧ Bound w table opts mem gen k :=
  isLeast_pred hN (locality_count hstop)

theorem locality_count_least_three :
    IsLeast {k | k = 3 ∨ Bound plainWorld smallTable [.M 1, .p 3, .e 1, .t 0] (fun _ => 0) () k}
        (run plainWorld smallTable [.M 1, .p 3, .e 1, .t 0] (fun _ => 0) () 12).st.jobs.length ↔
      ∃ k, k < 3 ∧ Bound plainWorld smallTable [.M 1, .p 3, .e 1, .t 0] (fun _ => 0) () k :=
  locality_count_least plainWorld smallTable [.M 1, .p 3, .e 1, .t 0] (fun _ => 0) () 12 (by decide +kernel)
    (by decide)

/-- With `-p 1` no locality runs. -/
theorem locality_count_none :
    (run plainWorld smallTable [.p 1] (fun _ => 0) () 2).pc = .stopped .returned ∧
      ¬IsLeast {k | k = phasesOf [.p 1] ∨ Bound plainWorld smallTable [.p 1] (fun _ => 0) () k}
        (run plainWorld smallTable [.p 1] (fun _ => 0) () 2).st.jobs.length := by
  have hstop : (run plainWorld smallTable [.p 1] (fun _ => 0) () 2).pc = .stopped .returned := by
    decide +kernel
  refine ⟨hstop, fun h => ?_⟩
  rcases h.1 with hone | ⟨hvec, _⟩ | ⟨m, hmain, _, hlimit⟩
  · revert hone
    decide +kernel
  · revert hvec
    decide
  · rw [← run_used hmain] at hlimit
    match m with
    | 0 => cases hmain
    | 1 =>
      revert hlimit
      decide +kernel
    | m + 2 =>
      have hsame : run plainWorld smallTable [.p 1] (fun _ => 0) () (m + 2) =
          run plainWorld smallTable [.p 1] (fun _ => 0) () 2 :=
        run_halted (congrArg halted hstop) (Nat.le_add_left 2 m)
      rw [hsame, hstop] at hmain
      cases hmain

end Gobbler.Proofs
