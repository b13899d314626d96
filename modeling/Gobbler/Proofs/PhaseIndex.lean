import Gobbler.Proofs.Progress
import Gobbler.Proofs.Records

namespace Gobbler.Proofs
open Effect

variable {γ : Type} {w : World γ} {table : FileTable} {b : Book} {l : Ledger} {limit : Nat}

/-- The limit on localities that the options leave in `max_phase`. -/
def phaseLimit (opts : List Opt) : Nat := opts.foldl phasesSet maxAlloc

/-- An access to `alloc_track[curr]` outside the array. -/
def outside : Halt := .undefined .trackIndex

/-- The transition and the holding state. -/
def Inner : Pc → Prop
  | .trans _ _ _ => True
  | .hold _ => True
  | _ => False

/-- There are at most as many phases as localities, and these are below the limit. -/
structure Indexed (limit : Nat) (v : View) : Prop where
  counted : v.book.curr + 1 ≤ v.book.curJob
  booting : ∀ opts, v.pc = .boot opts → opts.foldl phasesSet v.book.maxPhase = limit
  phases : v.pc = .main ∨ Inner v.pc → v.book.maxPhase = limit
  inside : Inner v.pc → 0 ≤ v.book.curr ∧ v.book.curJob < limit

theorem Indexed.stop {h : Halt} (hc : b.curr + 1 ≤ b.curJob) : Indexed limit ⟨b, .stopped h⟩ :=
  ⟨hc, by simp, by simp [Inner], by simp [Inner]⟩

theorem Indexed.main (hc : b.curr + 1 ≤ b.curJob) (hp : b.maxPhase = limit) :
    Indexed limit ⟨b, .main⟩ :=
  ⟨hc, by simp, fun _ => hp, by simp [Inner]⟩

theorem Indexed.inner {pc : Pc} (hi : Inner pc) (hc : b.curr + 1 ≤ b.curJob)
    (hp : b.maxPhase = limit) (hin : 0 ≤ b.curr ∧ b.curJob < limit) : Indexed limit ⟨b, pc⟩ := by
  refine ⟨hc, fun opts hpc => ?_, fun _ => hp, fun _ => hin⟩
  simp only at hpc
  subst hpc
  exact hi.elim

theorem Indexed.idle {b' : Book} {pc pc' : Pc} (h : Indexed limit ⟨b, pc⟩)
    (hi : Idle w b pc b' pc') : Indexed limit ⟨b', pc'⟩ := by
  have hc := h.counted
  cases hi with
  | leave | hold => exact .inner trivial hc (h.phases (.inr trivial)) (h.inside trivial)
  | held => exact .main hc (h.phases (.inr trivial))
  | ended | unread | leaveHalt | holdHalt | stopped => exact .stop hc

theorem Indexed.move {v v' : View} (ht : Tracked v.book.toLedger) (h : Indexed limit v)
    (hm : Move w v v') : Indexed limit v' := by
  have hc := h.counted
  have hlow := ht.low
  cases hm with
  | boot configured ledger next started =>
    rw [← congrArg Ledger.curr ledger, ← configured.curJob] at hc
    rcases next with rfl | ⟨_, rfl, _⟩
    · exact .main hc ((started rfl).phases.trans (h.booting _ rfl))
    · exact .stop hc
  | idle hi => exact h.idle hi
  | @finish _ b' located _ | @enterHalt _ b' _ located _ _ =>
    obtain ⟨hcurr, hjob, _⟩ := located.counted
    refine .stop (show b'.curr + 1 ≤ b'.curJob from ?_)
    rw [hcurr, hjob]
    exact Int.le_trans hc (by simp)
  | @overrun _ b' located _ =>
    exact .stop (located.counted.1 ▸ hc)
  | @skip _ b' located _ _ =>
    obtain ⟨hcurr, hjob, hmax⟩ := located.counted
    refine .main (show b'.curr + 1 ≤ b'.curJob from ?_) (hmax.trans (h.phases (.inl rfl)))
    rw [hcurr, hjob]
    exact Int.le_trans hc (by simp)
  | @enter _ b' _ _ _ located go _ _ =>
    obtain ⟨hcurr, hjob, hmax⟩ := located.counted
    have hlimit := hmax.trans (h.phases (.inl rfl))
    have hnot := (not_or.mp go).1
    simp only at hc hlow
    refine .inner trivial (show b'.curr + 1 + 1 ≤ b'.curJob from ?_) hlimit ⟨?_, ?_⟩
    · rw [hcurr, hjob]
      omega
    · change 0 ≤ b'.curr + 1
      omega
    · exact hlimit ▸ Nat.lt_of_not_le hnot
  | request _ request =>
    have hcurr := request.curr
    exact .inner trivial (hcurr ▸ hc) (h.phases (.inr trivial)) (hcurr ▸ h.inside trivial)
  | trouble _ request _ _ => exact .stop (request.curr ▸ hc)
  | aborted _ aborted => exact .stop (aborted.curr ▸ hc)

theorem BootHalt.ne_outside {h : Halt} (hb : BootHalt h) : h ≠ outside := by
  cases hb <;> decide

theorem Forced.ne_outside {h : Halt} (hf : Forced w h) : h ≠ outside := by
  cases hf <;> decide

/-- Where the phases are in the tracker, only such an access is missing among the ends. -/
theorem Trouble.ne_outside {h : Halt} (ht : Trouble w b h) (hin : InTracker b) : h ≠ outside := by
  cases ht with
  | touch why _ => cases why <;> decide
  | track hout => exact absurd hin hout

theorem Early.ne_outside {h : Halt} (he : Early w b h) (hin : InTracker b) : h ≠ outside := by
  cases he with
  | forced why => exact why.ne_outside
  | overflow _ => decide
  | track hout => exact absurd hin hout

/-- Below the limit every phase of a transition or a holding state is in the tracker. -/
theorem Indexed.in_tracker {v : View} (h : Indexed limit v) (hmax : limit ≤ maxAlloc + 1)
    (hi : Inner v.pc) : InTracker v.book := by
  have hc := h.counted
  obtain ⟨hlow, hjob⟩ := h.inside hi
  refine ⟨hlow, ?_⟩
  omega

theorem Indexed.not_outside {v v' : View} (h : Indexed limit v) (hmax : limit ≤ maxAlloc + 1)
    (hn : v.pc ≠ .stopped outside) (hm : Move w v v') : v'.pc ≠ .stopped outside := by
  have hin := h.in_tracker hmax
  have hne : ∀ {h : Halt}, h ≠ outside → Pc.stopped h ≠ .stopped outside := by
    intro h hne heq
    exact hne (Pc.stopped.inj heq)
  cases hm with
  | boot _ _ next _ =>
    rcases next with rfl | ⟨_, rfl, hb⟩
    · simp
    · exact hne hb.ne_outside
  | idle hi =>
    cases hi with
    | ended | unread => exact hne (by decide)
    | leaveHalt _ hout => exact absurd (hin trivial) hout
    | holdHalt why => exact hne (why.ne_outside (hin trivial))
    | stopped => exact hn
    | leave | hold | held => simp
  | finish | overrun => exact hne (by decide)
  | enterHalt _ _ why =>
    rcases why with hf | ⟨rfl, _⟩
    · exact hne hf.ne_outside
    · exact hne (by decide)
  | @trouble b _ _ _ _ _ led _ _ request _ why =>
    have hin' : InTracker (withLedger b led) := by
      have hcurr : (withLedger b led).curr = b.curr := request.curr
      rw [InTracker, hcurr]
      exact hin trivial
    exact hne (why.ne_outside hin')
  | aborted _ aborted =>
    cases aborted with
    | early why _ => exact hne (why.ne_outside (hin trivial))
    | full => exact hne (by decide)
  | skip | enter | request => simp

theorem run_indexed (w : World γ) (table : FileTable) (opts : List Opt) (mem : Nat → UInt8)
    (gen : γ) (n : Nat) : Indexed (phaseLimit opts) (view (run w table opts mem gen n)) := by
  refine (run_invariant w table opts mem gen (I := fun v => Tracked v.book.toLedger ∧
    Indexed (phaseLimit opts) v) ?_ ?_ n).2
  · refine ⟨booted_tracked table opts mem gen, (by decide : (-1 : Int) + 1 ≤ (0 : Nat)), ?_, ?_, ?_⟩
    · intro os hpc
      cases hpc
      rfl
    · simp [view, booted, Inner]
    · simp [view, booted, Inner]
  · intro v v' _ _ hq hm
    obtain ⟨ht, h⟩ := hq
    exact ⟨ht.move hm.ledger, h.move ht hm⟩

/-- A limit of at most one locality more than the tracker has lists keeps every
access inside it. -/
theorem run_not_outside (w : World γ) (table : FileTable) (opts : List Opt) (mem : Nat → UInt8)
    (gen : γ) (n : Nat) (hmax : phaseLimit opts ≤ maxAlloc + 1) :
    (run w table opts mem gen n).pc ≠ .stopped outside := by
  refine (run_invariant w table opts mem gen (I := fun v => (Tracked v.book.toLedger ∧
    Indexed (phaseLimit opts) v) ∧ v.pc ≠ .stopped outside) ?_ ?_ n).2
  · exact ⟨⟨run_tracked w table opts mem gen 0, run_indexed w table opts mem gen 0⟩,
      by simp [view, booted]⟩
  · intro v v' _ _ hq hm
    obtain ⟨⟨ht, h⟩, hn⟩ := hq
    exact ⟨⟨ht.move hm.ledger, h.move ht hm⟩, h.not_outside hmax hn hm⟩

/-- A line of a vector that asks for no page and no time. -/
def emptyLine : List Char := ['0', ',', '0', '\n']

theorem getline_emptyLine (rest : List Char) :
    getline (emptyLine ++ rest) = some (emptyLine, rest) := rfl

theorem parseLine_emptyLine : parseLine false emptyLine = some (0, 0) := by
  decide +kernel

/-- The command line with such lines, one more than the tracker has lists. -/
def manyLines (p : Int) : List Opt :=
  [.p p, .V (some (List.replicate (maxAlloc + 1) emptyLine).flatten)]

/-- The books before a locality, `j` empty phases after the start. -/
structure Idling (p : Int) (j : Nat) (b : Book) : Prop where
  vector : b.vector = true
  trace : b.ipfvt = false
  stream : b.vectorStream = (List.replicate (maxAlloc + 1 - j) emptyLine).flatten
  phases : b.maxPhase = ofLong p
  nomore : b.allocNomore = false
  used : b.fileCnt = 0 ∧ b.anonCnt = 0
  curJob : b.curJob = j
  curr : b.curr + 1 = j

/-- The run with these lines. -/
def idleRun (p : Int) (n : Nat) : Machine Unit :=
  run calmWorld smallTable (manyLines p) (fun _ => 0) () n

theorem idling_start (p : Int) :
    (idleRun p 1).pc = .main ∧ Idling p 0 (idleRun p 1).st.toBook :=
  ⟨rfl, rfl, rfl, rfl, rfl, rfl, ⟨rfl, rfl⟩, rfl, rfl⟩

theorem calmWorld_not_late (t : Granularity) : ¬Late calmWorld t 0 := by
  intro hq
  obtain ⟨n, hlate⟩ := hq
  rw [add_zero] at hlate
  exact lt_irrefl _ hlate

/-- The books of the next phase. -/
def nextIdle (b : Book) (j : Nat) (rows : List Row) : Book :=
  opened (called (limited (relined b (List.replicate (maxAlloc - j) emptyLine).flatten 0 0) rows)) 0

/-- The next locality is entered, and its transition has nothing to request. -/
theorem Idling.enter {p : Int} {j n : Nat} (h : Idling p j (idleRun p n).st.toBook)
    (hpc : (idleRun p n).pc = .main) (hj : j ≤ maxAlloc) (hp : maxAlloc + 2 ≤ ofLong p) :
    ∃ rows t i, (idleRun p (n + 1)).pc = .trans 0 t ⟨0, i, -1⟩ ∧
      (idleRun p (n + 1)).st.toBook = nextIdle (idleRun p n).st.toBook j rows := by
  have hcurr := h.curr
  have hstream : getline (idleRun p n).st.vectorStream =
      some (emptyLine, (List.replicate (maxAlloc - j) emptyLine).flatten) := by
    rw [h.stream, show maxAlloc + 1 - j = (maxAlloc - j) + 1 by omega, List.replicate_succ,
      List.flatten_cons]
    exact getline_emptyLine _
  have hm : Move calmWorld (view (idleRun p n)) (view (idleRun p (n + 1))) :=
    (run_turned calmWorld smallTable (manyLines p) (fun _ => 0) () n).move
  rw [view, hpc] at hm
  have hline : parseLine (idleRun p n).st.ipfvt emptyLine = some (0, 0) :=
    h.trace ▸ parseLine_emptyLine
  have hint : (idleRun p n).st.curJob + 1 < 2 ^ 31 := by
    rw [h.curJob]
    exact lt_of_le_of_lt (Nat.succ_le_succ hj) (by decide)
  have hphase : (idleRun p n).st.curJob + 1 < (idleRun p n).st.maxPhase := by
    rw [h.curJob, h.phases]
    omega
  have hlimit : wrap ((idleRun p n).st.fileCnt + (idleRun p n).st.anonCnt) ≤
      (idleRun p n).st.maxLimit := by
    rw [h.used.1, h.used.2]
    simp [wrap]
  obtain ⟨rows, ⟨i, hbook, htrans⟩ | ⟨late, _⟩⟩ :=
    hm.of_line calmWorld_willing h.vector hstream hline hint hphase h.nomore hlimit (by omega)
  · exact ⟨rows, _, i, htrans, hbook⟩
  · exact absurd late (calmWorld_not_late _)

/-- An empty phase in the tracker comes back to `main`. -/
theorem Idling.next {p : Int} {j n : Nat} (h : Idling p j (idleRun p n).st.toBook)
    (hpc : (idleRun p n).pc = .main) (hj : j < maxAlloc) (hp : maxAlloc + 2 ≤ ofLong p) :
    ∃ k, (idleRun p k).pc = .main ∧ Idling p (j + 1) (idleRun p k).st.toBook := by
  have hcurr := h.curr
  obtain ⟨rows, t, i, htrans, hbook⟩ := h.enter hpc (Nat.le_of_lt hj) hp
  have hin : InTracker (idleRun p (n + 1)).st.toBook := by
    rw [hbook]
    simp only [InTracker, nextIdle, opened, called, limited, relined]
    omega
  have hsized : Sized calmWorld (idleRun p (n + 1)).st.toBook := by
    refine ⟨rfl, (run_settled calmWorld smallTable (manyLines p) (fun _ => 0) () (n + 1)).access, ?_⟩
    have ht : Tracked (called (limited (relined (idleRun p n).st.toBook
        (List.replicate (maxAlloc - j) emptyLine).flatten 0 0) rows)).toLedger :=
      run_tracked calmWorld smallTable (manyLines p) (fun _ => 0) () n
    rw [hbook, nextIdle, ht.opened]
    simp
  obtain ⟨k, hk⟩ := phase_ends calmWorld_willing
    (run_ok calmWorld smallTable (manyLines p) (fun _ => 0) () (n + 1)) htrans rfl hin hsized
    fun n i _ => ⟨0, fun k _ => le_of_eq (sub_self _).symm⟩
  rw [← run_add] at hk
  refine ⟨k + (n + 1), hk.1, ?_⟩
  change Idling p (j + 1) (run calmWorld smallTable (manyLines p) (fun _ => 0) () (k + (n + 1))).st.toBook
  rw [hk.2]
  change Idling p (j + 1) { left (idleRun p (n + 1)).st.toBook with num := _, phaseCnt := _ }
  rw [hbook]
  refine ⟨h.vector, h.trace, ?_, h.phases, ?_, h.used, ?_, ?_⟩
  · simp only [left, nextIdle, opened, called, limited, relined]
    rw [show maxAlloc + 1 - (j + 1) = maxAlloc - j by omega]
  · simp [left, nextIdle, opened, called, limited, relined, h.nomore, h.used, wrap]
  · simp only [left, nextIdle, opened, called, limited, relined, h.curJob]
  · simp only [left, nextIdle, opened, called, limited, relined]
    omega

/-- After as many empty phases as the tracker has lists, the next one is outside. -/
theorem idling_all {p : Int} (hp : maxAlloc + 2 ≤ ofLong p) (j : Nat) (hj : j ≤ maxAlloc) :
    ∃ k, (idleRun p k).pc = .main ∧ Idling p j (idleRun p k).st.toBook := by
  induction j with
  | zero => exact ⟨1, idling_start p⟩
  | succ j ih =>
    obtain ⟨k, hpc, h⟩ := ih (Nat.le_of_lt hj)
    exact h.next hpc hj hp

theorem Move.of_lost {b' : Book} {e : ℚ} {t : Granularity} {l : TransLocals} {pc : Pc}
    (h : Move w ⟨b, .trans e t l⟩ ⟨b', pc⟩) (done : l.cnt = 0) (hout : ¬InTracker b) :
    pc = .stopped outside := by
  cases h with
  | idle hi =>
    cases hi with
    | leave _ hin => exact absurd hin hout
    | leaveHalt => rfl
  | request more _ | trouble more _ _ _ | aborted more _ => exact absurd done more

theorem idleRun_outside {p : Int} (hp : maxAlloc + 2 ≤ ofLong p) :
    ∃ k, (idleRun p k).pc = .stopped outside := by
  obtain ⟨n, hpc, h⟩ := idling_all hp maxAlloc (Nat.le_refl _)
  have hcurr := h.curr
  obtain ⟨rows, t, i, htrans, hbook⟩ := h.enter hpc (Nat.le_refl _) hp
  have hout : ¬InTracker (idleRun p (n + 1)).st.toBook := by
    rw [hbook]
    simp only [InTracker, nextIdle, opened, called, limited, relined]
    omega
  have hm : Move calmWorld (view (idleRun p (n + 1))) (view (idleRun p (n + 2))) :=
    (run_turned calmWorld smallTable (manyLines p) (fun _ => 0) () (n + 1)).move
  rw [view, htrans] at hm
  exact ⟨n + 2, hm.of_lost rfl hout⟩

/-- No access to `alloc_track[curr]` leaves the array just when `-p` is at most
one more than its length. -/
theorem phase_index_in_tracker (p : Int) :
    (∀ (γ : Type) (w : World γ) (table : FileTable) (opts : List Opt) (mem : Nat → UInt8)
      (gen : γ) (n : Nat), phaseLimit opts = ofLong p →
      (run w table opts mem gen n).pc ≠ .stopped (.undefined .trackIndex)) ↔
    ofLong p ≤ maxAlloc + 1 := by
  constructor
  · intro h
    by_contra hp
    obtain ⟨k, hk⟩ := idleRun_outside (p := p) (by omega)
    exact h Unit calmWorld smallTable (manyLines p) (fun _ => 0) () k rfl hk
  · intro hp γ w table opts mem gen n hlimit
    exact run_not_outside w table opts mem gen n (hlimit ▸ hp)

theorem phase_index_outside_60002 : ∃ n,
    (run calmWorld smallTable (manyLines 60002) (fun _ => 0) () n).pc =
      .stopped (.undefined .trackIndex) :=
  idleRun_outside (by decide)

end Gobbler.Proofs
