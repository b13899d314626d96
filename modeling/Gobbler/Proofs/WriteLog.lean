import Gobbler.Lib.Chapters
import Gobbler.Proofs.Focus
import Gobbler.Proofs.Rounds

namespace Gobbler.Proofs
open Effect Sweep Chapters

variable {γ : Type} {w : World γ} {table : FileTable} {opts : List Opt} {mem : Nat → UInt8} {gen : γ}
  {k : Nat}

/-- The bytes of a transition that touches each new mapping `i` times. -/
def loopBytes (k i : Nat) (rs : List AllocRec) : List Nat :=
  rs.flatMap fun r => (List.replicate i (touchedBytes k r)).flatten

theorem loopBytes_append (k i : Nat) (rs rs' : List AllocRec) :
    loopBytes k i (rs ++ rs') = loopBytes k i rs ++ loopBytes k i rs' := by
  simp [loopBytes]

theorem loopBytes_singleton (k i : Nat) (r : AllocRec) :
    loopBytes k i [r] = (List.replicate i (touchedBytes k r)).flatten := by
  simp [loopBytes]

/-- The writes of phase `p`: its transition, and the passes of its holding state. -/
def phaseWrites (k : Nat) (track : Nat → List AllocRec) (loops passes : Nat → Nat) (p : Nat) :
    List (Int × Nat) :=
  (loopBytes k (loops p) (track p) ++ passBytes k (track p) (passes p)).map fun a => ((p : Int), a)

/-- The writes so far are those of the phases, one after the other. -/
structure Chaptered (w : World γ) (k : Nat) (loops passes : Nat → Nat) (m : Machine γ) : Prop where
  few : ∀ p, loops p ≤ 2
  log : m.st.writes.reverse =
    chapters (phaseWrites k m.st.allocTrack loops passes) (m.st.curr + 1).toNat
  trans : ∀ e t l, m.pc = .trans e t l → 0 ≤ m.st.curr ∧ loops m.st.curr.toNat = l.i ∧
    passes m.st.curr.toNat = 0
  hold : ∀ l, m.pc = .hold l → ∃ e t start,
    Looping w e t (current m.st.toBook).length start (passes m.st.curr.toNat) l m

/-- A request that puts the records of `added` at the end of its phase, and touches them. -/
structure Served (k i : Nat) (added : List AllocRec) (s t : St γ) : Prop where
  curr : t.curr = s.curr
  track : t.allocTrack = Function.update s.allocTrack s.curr.toNat (current s.toBook ++ added)
  writes : t.writes = ((loopBytes k i added).map fun a => (s.curr, a)).reverse ++ s.writes

theorem loopN_visits (hk : Plain k) {rs : List AllocRec} (hrs : ∀ r ∈ rs, FitsStride r) (n : Nat)
    {s : St γ} (hs : Resting k rs s) :
    Ends (loopN w n) s (fun _ t =>
      Visits (List.replicate n (recordBytes k rs (wrapSub rs.length 1))).flatten s t) fun _ _ => False := by
  unfold loopN
  induction n generalizing s with
  | zero => exact Visits.refl s
  | succ n ih =>
    unfold times
    rw [ends_bind, ends_bind, Ends, currTrack_ok hs.track]
    simp only [hs.records]
    apply (touch_visits hk hrs hs _).imp
    intro _ t ht
    apply (ih (hs.visits ht)).imp
    intro _ u hu
    rw [List.replicate_succ, List.flatten_cons]
    exact ht.append hu

theorem transRandAllocPass_served (hk : Plain k) {s : St γ} (hr : Ready s.toBook)
    (hs : s.accessType = k) (l : TransLocals) :
    Ends (transRandAllocPass w l) s
      (fun l' u => (∀ r ∈ current u.toBook, FitsStride r) → l'.i = l.i ∧ ∃ added, Served k l.i added s u)
      fun _ _ => True := by
  unfold transRandAllocPass
  rw [ends_bind]
  refine (randomAllocatorOne_ends hr l.anonSlice l.cnt).mono ?_ fun _ _ _ => trivial
  rintro ⟨typ, cnt⟩ u ⟨led, hreq, hu⟩
  have hbook := hu.book
  have hcurr : u.curr = s.curr := (congrArg Ledger.curr hu.ledger).trans hreq.curr
  have hwrites : u.writes = s.writes := congrArg Memory.writes hu.memory
  dsimp only
  rw [ends_ite]
  refine ⟨fun htyp _ => ⟨rfl, [], hcurr, ?_, hwrites⟩, fun hne => ?_⟩
  · subst htyp
    obtain ⟨_, lst, _, rfl⟩ := hreq.of_typeMax
    have htrack : u.allocTrack = s.allocTrack := (congrArg Ledger.allocTrack hu.ledger).trans rfl
    simp [htrack, current]
  · obtain ⟨hin, r, htrack, hrecords, hroom⟩ := hreq.newest hne
    rw [← hbook] at hrecords
    have htrack' : u.allocTrack =
        Function.update s.allocTrack s.curr.toNat (current s.toBook ++ [r]) :=
      (congrArg Ledger.allocTrack hu.ledger).trans htrack
    have hin' : InTracker u.toBook := by
      have hc : u.toBook.curr = s.toBook.curr := hcurr
      exact ⟨hc ▸ hin.1, hc ▸ hin.2⟩
    have haccess : u.accessType = k := by
      rw [← hs]
      exact (congrArg (fun b : Book => b.accessType) hbook).trans rfl
    have hloop : (∀ r ∈ current u.toBook, FitsStride r) → Ends (loopN w l.i) u
        (fun _ v => Visits (loopBytes k l.i [r]) u v) fun _ _ => False := by
      intro hfit
      have h := loopN_visits (w := w) hk hfit l.i ⟨haccess, hin', rfl⟩
      rw [recordBytes, hrecords, newest_getElem r hroom] at h
      rw [loopBytes_singleton]
      exact h
    rw [ends_bind]
    refine ((Ends.under hloop).and (loopN_ends l.i u)).mono ?_ fun _ _ _ => trivial
    rintro _ v ⟨hvisits, hv⟩ hfit
    have hb : v.toBook = u.toBook := hv.kept.book
    rw [hb] at hfit
    have hlog := (hvisits hfit).writes
    refine ⟨rfl, [r], (congrArg (fun b : Book => b.curr) hb).trans hcurr,
      (congrArg (fun b : Book => b.allocTrack) hb).trans htrack', ?_⟩
    rw [hcurr, hwrites] at hlog
    exact hlog

/-- `main` opens a phase or goes round. -/
theorem Move.from_main {b b' : Book} {pc : Pc} (h : Move w ⟨b, .main⟩ ⟨b', pc⟩)
    (hrun : halted pc = none) : b'.allocTrack = b.allocTrack ∧
      ((pc = .main ∧ b'.curr = b.curr) ∨ ∃ e t l, pc = .trans e t l ∧ b'.curr = b.curr + 1) := by
  have hkept : ∀ {c : Book}, Located b c → c.allocTrack = b.allocTrack ∧ c.curr = b.curr :=
    fun hl => ⟨congrArg Ledger.allocTrack hl.ledger, congrArg Ledger.curr hl.ledger⟩
  cases h with
  | idle hi => cases hi <;> cases hrun
  | finish | overrun | enterHalt => cases hrun
  | skip located => exact ⟨(hkept located).1, .inl ⟨rfl, (hkept located).2⟩⟩
  | enter located =>
    exact ⟨(hkept located).1, .inr ⟨_, _, _, rfl, congrArg (· + 1) (hkept located).2⟩⟩

/-- A transition that is over leaves its records to a holding state. -/
theorem Move.from_done {b b' : Book} {e : ℚ} {t : Granularity} {l : TransLocals} {pc : Pc}
    (h : Move w ⟨b, .trans e t l⟩ ⟨b', pc⟩) (hdone : l.cnt = 0) (hrun : halted pc = none) :
    b' = left b ∧ ∃ l', pc = .hold l' := by
  cases h with
  | idle hi =>
    cases hi with
    | leave => exact ⟨rfl, _, rfl⟩
    | leaveHalt => cases hrun
  | request more | trouble more | aborted more => exact absurd hdone more

/-- Only what a computation returns is of interest. -/
abbrev Returns {α : Type} (V : α → Prop) (m : M γ α) : Prop :=
  Yields (fun _ _ : St γ => True) (fun _ => True) V m

instance : IsPreorder (St γ) fun _ _ => True where
  refl _ := trivial
  trans _ _ _ _ _ := trivial

theorem returns_any {α : Type} (m : M γ α) : Returns (fun _ => True) m :=
  fun _ => ends_any (fun _ _ => ⟨trivial, trivial⟩) fun _ _ => ⟨trivial, trivial⟩

theorem transRandAllocEnter_loops : Returns (fun l : TransLocals => l.i ≤ 2) (transRandAllocEnter w) := by
  have hlim : Returns (fun v : Int => 0 ≤ v ∧ v < 3) (randLim w 3) :=
    (randLim_quiet (by decide) (by decide)).mono (fun _ _ _ => trivial) (fun _ _ => trivial) fun _ h => h
  refine yields_bind hlim fun i hi => ?_
  refine yields_seq (returns_any _) fun _ => yields_seq (returns_any _) fun _ => ?_
  refine yields_seq (returns_any _) fun _ => yields_seq (returns_any _) fun _ => yields_pure ?_
  change i.toNat ≤ 2
  omega

/-- A transition touches each new mapping at most twice. -/
def FewLoops (pc : Pc) : Prop := ∀ e t l, pc = .trans e t l → l.i ≤ 2

theorem job_loops (e : ℚ) (t : Granularity) : Returns FewLoops (job w e t) := by
  refine yields_seq (returns_any _) fun _ => yields_seq (returns_any _) fun _ => ?_
  refine yields_seq (returns_any _) fun _ => yields_ite (fun _ => ?_) fun _ => ?_
  · exact yields_seq (returns_any _) fun _ => yields_seq (returns_any _) fun _ => yields_pure nofun
  · refine yields_seq (returns_any _) fun _ => yields_ite (fun _ => ?_) fun _ => ?_
    · exact yields_seq (returns_any _) fun _ => yields_seq (returns_any _) fun _ => yields_pure nofun
    · refine yields_bind transRandAllocEnter_loops fun l hl => yields_pure ?_
      intro _ _ _ h
      cases h
      exact hl

theorem mainPass_loops : Returns FewLoops (mainPass w) := by
  refine yields_seq (returns_any _) fun _ => yields_ite (fun _ => ?_) fun _ => yields_pure nofun
  refine yields_seq (returns_any _) fun _ => yields_seq (returns_any _) fun _ => ?_
  refine yields_seq (returns_any _) fun _ => yields_seq (returns_any _) fun _ => ?_
  exact yields_ite (fun _ => yields_pure nofun) fun _ => job_loops _ _

section steps

variable {loops passes : Nat → Nat} {m : Machine γ}

theorem Chaptered.round {m' : Machine γ} (h : Chaptered w k loops passes m)
    (hwrites : m'.st.writes = m.st.writes) (htrack : m'.st.allocTrack = m.st.allocTrack)
    (hcurr : m'.st.curr = m.st.curr) (hpc : m'.pc = .main) : Chaptered w k loops passes m' := by
  refine ⟨h.few, ?_, fun _ _ _ hl => ?_, fun _ hl => ?_⟩
  · rw [hwrites, htrack, hcurr, h.log]
  · cases hpc.symm.trans hl
  · cases hpc.symm.trans hl

/-- A phase begins without a record, and without a write. -/
theorem Chaptered.opened {m' : Machine γ} (h : Chaptered w k loops passes m)
    (htr : Tracked m.st.toLedger) (hwrites : m'.st.writes = m.st.writes)
    (htrack : m'.st.allocTrack = m.st.allocTrack) (hcurr : m'.st.curr = m.st.curr + 1) {e : ℚ}
    {t : Granularity} {l : TransLocals} (hpc : m'.pc = .trans e t l) (hfew : l.i ≤ 2) :
    Chaptered w k (Function.update loops (m.st.curr + 1).toNat l.i)
      (Function.update passes (m.st.curr + 1).toNat 0) m' := by
  have hlow := htr.low
  have hpos : 0 ≤ m.st.curr + 1 := by omega
  refine ⟨fun p => ?_, ?_, fun e' t' l' hl => ?_, fun l' hl => ?_⟩
  · by_cases hp : p = (m.st.curr + 1).toNat
    · simp [hp, hfew]
    · simp [Function.update_of_ne hp, h.few]
  · have hempty : m.st.allocTrack (m.st.curr + 1).toNat = [] := htr.above _ (by omega)
    rw [hwrites, htrack, hcurr, h.log, Int.toNat_add hpos (by decide)]
    refine (chapters_opened (fun p hp => ?_) ?_).symm
    · simp [phaseWrites, Function.update_of_ne (Nat.ne_of_lt hp)]
    · simp [phaseWrites, hempty, loopBytes, passBytes]
  · cases hpc.symm.trans hl
    rw [hcurr]
    simp [hpos]
  · cases hpc.symm.trans hl

theorem Chaptered.main (h : Chaptered w k loops passes m) (hok : Ok (view m)) (htr : Tracked m.st.toLedger)
    (hpc : m.pc = .main) (hrun : halted (step w m).pc = none) :
    ∃ loops' passes', Chaptered w k loops' passes' (step w m) := by
  obtain ⟨hmem, hfew⟩ : (step w m).st.toMemory = m.st.toMemory ∧ FewLoops (step w m).pc := by
    apply step_of_ends (P := fun m' => m'.st.toMemory = m.st.toMemory ∧ FewLoops m'.pc)
    rw [hpc]
    exact ((mainPass_aloof.oblivious.unwritten m.st).and (mainPass_loops m.st)).mono
      (fun _ _ hq => ⟨hq.1.memory, hq.2.2⟩) fun _ _ hq => ⟨hq.1.memory, nofun⟩
  have hwrites : (step w m).st.writes = m.st.writes := congrArg Memory.writes hmem
  have hmove := (step_turned (w := w) hok).move
  rw [hpc] at hmove
  obtain ⟨htrack, ⟨hmain, hcurr⟩ | ⟨e, t, l, hpc', hcurr⟩⟩ := hmove.from_main hrun
  · exact ⟨loops, passes, h.round hwrites htrack hcurr hmain⟩
  · exact ⟨_, _, h.opened htr hwrites htrack hcurr hpc' (hfew e t l hpc')⟩

theorem Chaptered.request (h : Chaptered w k loops passes m) (hok : Ok (view m)) (hk : Plain k)
    (hset : m.st.accessType = k) {e : ℚ} {t : Granularity} {l : TransLocals} (hpc : m.pc = .trans e t l)
    (hmore : l.cnt ≠ 0) (hrun : halted (step w m).pc = none)
    (hfit : ∀ r ∈ current (step w m).st.toBook, FitsStride r) :
    Chaptered w k loops passes (step w m) := by
  obtain ⟨l', hpc', hi, added, hs⟩ : ∃ l', (step w m).pc = .trans e t l' ∧ l'.i = l.i ∧
      ∃ added, Served k l.i added m.st (step w m).st := by
    revert hfit hrun
    apply step_of_ends (P := fun m' => halted m'.pc = none →
      (∀ r ∈ current m'.st.toBook, FitsStride r) → ∃ l', m'.pc = .trans e t l' ∧ l'.i = l.i ∧
      ∃ added, Served k l.i added m.st m'.st)
    rw [hpc]
    unfold turn
    rw [ends_ite]
    refine ⟨fun _ => ?_, fun h => absurd hmore h⟩
    rw [ends_bind]
    refine (transRandAllocPass_served hk hok.ready hset l).mono ?_ fun _ _ _ => nofun
    intro l' u hu _ hfit
    exact ⟨l', rfl, hu hfit⟩
  obtain ⟨hpos, hloops, hpasses⟩ := h.trans e t l hpc
  have hnat : ((m.st.curr.toNat : Nat) : Int) = m.st.curr := Int.toNat_of_nonneg hpos
  refine ⟨h.few, ?_, ?_, ?_⟩
  · have hlog := h.log
    rw [Int.toNat_add hpos (by decide)] at hlog
    rw [hs.writes, List.reverse_append, List.reverse_reverse, hlog, hs.curr,
      Int.toNat_add hpos (by decide), hs.track]
    refine (chapters_extended (fun p hp => ?_) ?_).symm
    · simp [phaseWrites, Function.update_of_ne (Nat.ne_of_lt hp)]
    · simp [phaseWrites, hloops, hpasses, passBytes, loopBytes_append, current, hnat]
  · intro e' t' l'' hl
    cases hpc'.symm.trans hl
    rw [hs.curr]
    exact ⟨hpos, hloops.trans hi.symm, hpasses⟩
  · intro l'' hl
    cases hpc'.symm.trans hl

theorem Chaptered.leave (h : Chaptered w k loops passes m) (hok : Ok (view m)) {e : ℚ} {t : Granularity}
    {l : TransLocals} (hpc : m.pc = .trans e t l) (hdone : l.cnt = 0)
    (hrun : halted (step w m).pc = none) : Chaptered w k loops passes (step w m) := by
  have hmem : (step w m).st.toMemory = m.st.toMemory := by
    apply step_of_ends (P := fun m' => m'.st.toMemory = m.st.toMemory)
    rw [hpc]
    unfold turn
    rw [ends_ite]
    refine ⟨fun h => absurd hdone h, fun _ => ?_⟩
    rw [ends_bind]
    change Ends (jobHold w e t) { m.st with toBook := left m.st.toBook } _ _
    exact ((jobHold_aloof e t).oblivious.unwritten _).mono (fun _ _ hu => hu.memory) fun _ _ hu => hu.memory
  have hmove := (step_turned (w := w) hok).move
  rw [hpc] at hmove
  obtain ⟨hbook, l', hpc'⟩ := hmove.from_done hdone hrun
  have hcurr : (step w m).st.curr = m.st.curr := (congrArg (fun b : Book => b.curr) hbook).trans rfl
  have htrack : (step w m).st.allocTrack = m.st.allocTrack :=
    (congrArg (fun b : Book => b.allocTrack) hbook).trans rfl
  have hwrites : (step w m).st.writes = m.st.writes := congrArg Memory.writes hmem
  obtain ⟨s, hs⟩ := step_enters hpc hpc'
  have hstart := looping_start hs
  obtain ⟨_, _, hpasses⟩ := h.trans e t l hpc
  refine ⟨h.few, ?_, ?_, ?_⟩
  · rw [hwrites, htrack, hcurr, h.log]
  · intro e' t' l'' hl
    cases hpc'.symm.trans hl
  · intro l'' hl
    cases hpc'.symm.trans hl
    have hm : step w m = ⟨(step w m).st, .hold l'⟩ := by rw [← hpc']
    rw [hcurr, hpasses, hm]
    exact ⟨e, t, _, hstart⟩

theorem Chaptered.held (h : Chaptered w k loops passes m) (hk : Plain k) (hset : m.st.accessType = k)
    {l : HoldLocals} (hpc : m.pc = .hold l) (hfit : ∀ r ∈ current m.st.toBook, FitsStride r) :
    ∃ passes', Chaptered w k loops passes' (step w m) := by
  obtain ⟨e, t, start, hl⟩ := h.hold l hpc
  by_cases hleft : l.run < l.execTime
  · obtain ⟨u, num, hv, hst, l', hnext⟩ := hl.goes_on hk hfit ⟨hset, hl.track, rfl⟩ hleft
    have hpos : 0 ≤ m.st.curr := hl.track.1
    have hnat : ((m.st.curr.toNat : Nat) : Int) = m.st.curr := Int.toNat_of_nonneg hpos
    have hbook : u.toBook = m.st.toBook := hv.book
    have htrack' : u.allocTrack = m.st.allocTrack := congrArg (fun b : Book => b.allocTrack) hbook
    have hcurr : (step w m).st.curr = m.st.curr := by
      rw [hst]
      exact hv.curr
    have htrack : (step w m).st.allocTrack = m.st.allocTrack := by
      rw [hst]
      exact htrack'
    have hwrites : (step w m).st.writes = u.writes := by
      rw [hst]
      rfl
    have hrecords : current (step w m).st.toBook = current m.st.toBook := by
      change (step w m).st.allocTrack (step w m).st.curr.toNat = _
      rw [htrack, hcurr]
      rfl
    refine ⟨Function.update passes m.st.curr.toNat (passes m.st.curr.toNat + 1), h.few, ?_, ?_, ?_⟩
    · have hlog := h.log
      rw [Int.toNat_add hpos (by decide)] at hlog
      rw [hwrites, hv.writes, List.reverse_append, List.reverse_reverse, hlog, hcurr, htrack,
        Int.toNat_add hpos (by decide)]
      refine (chapters_extended (fun p hp => ?_) ?_).symm
      · simp [phaseWrites, Function.update_of_ne (Nat.ne_of_lt hp)]
      · simp [phaseWrites, passBytes_succ, current, hnat]
    · intro e' t' l'' hl''
      cases hnext.pc.symm.trans hl''
    · intro l'' hl''
      cases hnext.pc.symm.trans hl''
      rw [hrecords, hcurr, Function.update_self]
      exact ⟨e, t, start, hnext⟩
  · have hover := hl.over (w := w) (not_lt.mp hleft)
    rw [hover]
    exact ⟨passes, h.round rfl rfl rfl rfl⟩

end steps

/-- The first turn writes nothing. -/
theorem Move.from_boot {b b' : Book} {pc : Pc} (h : Move w ⟨b, .boot opts⟩ ⟨b', pc⟩)
    (hrun : halted pc = none) : pc = .main ∧ b'.curr = b.curr := by
  cases h with
  | boot _ ledger next =>
    refine ⟨?_, congrArg Ledger.curr ledger⟩
    rcases next with rfl | ⟨x, rfl, _⟩
    · rfl
    · cases hrun
  | idle hi => cases hi

theorem run_chaptered (ht : PageTable table) (hshort : ∀ c ∈ table.classes, c.1 < 2 ^ 63) {n : Nat}
    (hrun : halted (run w table opts mem gen (n + 1)).pc = none)
    (hk : Plain (run w table opts mem gen (n + 1)).st.accessType) :
    ∃ loops passes, Chaptered w (run w table opts mem gen (n + 1)).st.accessType loops passes
      (run w table opts mem gen (n + 1)) := by
  induction n with
  | zero =>
    have hmove := (run_turned w table opts mem gen 0).move
    obtain ⟨hmain, hcurr⟩ := hmove.from_boot (b := (initial table mem gen).toBook) hrun
    have hcurr' : (run w table opts mem gen 1).st.curr = -1 := hcurr
    have hmem : (run w table opts mem gen 1).st.toMemory = (initial table mem gen).toMemory :=
      step_boot_memory rfl
    have hwrites : (run w table opts mem gen 1).st.writes = [] := congrArg Memory.writes hmem
    refine ⟨fun _ => 0, fun _ => 0, fun _ => by simp, ?_, fun _ _ _ h => ?_, fun _ h => ?_⟩
    · rw [hwrites, hcurr']
      rfl
    · cases hmain.symm.trans h
    · cases hmain.symm.trans h
  | succ n ih =>
    have hmove := (run_turned w table opts mem gen (n + 1)).move
    have hbefore : halted (run w table opts mem gen (n + 1)).pc = none := hmove.running hrun
    have haccess : (run w table opts mem gen (n + 1 + 1)).st.accessType =
        (run w table opts mem gen (n + 1)).st.accessType :=
      (run_toggles w table opts mem gen n 1).access
    have hok := run_ok w table opts mem gen (n + 1)
    have htr := run_tracked w table opts mem gen (n + 1)
    have hfit : ∀ n, ∀ r ∈ current (run w table opts mem gen n).st.toBook, FitsStride r :=
      run_fitsStride ht hshort
    have hnext := hfit (n + 1 + 1)
    rw [haccess] at hk ⊢
    obtain ⟨loops, passes, h⟩ := ih hbefore hk
    rw [run_succ w table opts mem gen (n + 1)] at hrun hnext ⊢
    cases hpc : (run w table opts mem gen (n + 1)).pc with
    | boot os => exact absurd hpc ((run_turned w table opts mem gen n).move.booted os)
    | main => exact h.main hok htr hpc hrun
    | trans e t l =>
      by_cases hmore : l.cnt = 0
      · exact ⟨loops, passes, h.leave hok hpc hmore hrun⟩
      · exact ⟨loops, passes, h.request hok hk rfl hpc hmore hrun hnext⟩
    | hold l => exact ⟨loops, h.held hk rfl hpc (hfit (n + 1))⟩
    | stopped x =>
      rw [hpc] at hbefore
      cases hbefore

/-- With an access pattern without chance the writes of a whole run follow from
its records: each phase touches every new mapping equally often, at most twice,
and then makes the passes of its holding state, the last phase those it has made
by now. -/
theorem writes_by_phase (w : World γ) (table : FileTable) (ht : PageTable table)
    (hshort : ∀ c ∈ table.classes, c.1 < 2 ^ 63) (opts : List Opt) (mem : Nat → UInt8) (gen : γ)
    (n : Nat) (hrun : halted (run w table opts mem gen n).pc = none)
    (hk : Plain (run w table opts mem gen n).st.accessType) :
    let m := run w table opts mem gen n
    ∃ loops passes : Nat → Nat, (∀ p, loops p ≤ 2) ∧
      m.st.writes.reverse = ((List.range (m.st.curr + 1).toNat).flatMap fun p =>
        (loopBytes m.st.accessType (loops p) (m.st.allocTrack p) ++
          passBytes m.st.accessType (m.st.allocTrack p) (passes p)).map fun a => ((p : Int), a)) ∧
      (∀ e t l, m.pc = .trans e t l → loops m.st.curr.toNat = l.i ∧ passes m.st.curr.toNat = 0) ∧
      ∀ l, m.pc = .hold l → l.i = cursor (current m.st.toBook).length (passes m.st.curr.toNat) := by
  intro m
  cases n with
  | zero => exact absurd hk.2 (by simp [run, initial])
  | succ n =>
    obtain ⟨loops, passes, h⟩ := run_chaptered ht hshort hrun hk
    refine ⟨loops, passes, h.few, h.log, fun e t l hpc => (h.trans e t l hpc).2, fun l hpc => ?_⟩
    obtain ⟨_, _, _, hl⟩ := h.hold l hpc
    exact hl.index

theorem writes_by_phase_two :
    let m := run plainWorld smallTable [.p 3, .M 2, .e 1, .t 3] (fun _ => 0) () 10
    ∃ loops passes : Nat → Nat, (∀ p, loops p ≤ 2) ∧
      m.st.writes.reverse = ((List.range (m.st.curr + 1).toNat).flatMap fun p =>
        (loopBytes m.st.accessType (loops p) (m.st.allocTrack p) ++
          passBytes m.st.accessType (m.st.allocTrack p) (passes p)).map fun a => ((p : Int), a)) ∧
      (∀ e t l, m.pc = .trans e t l → loops m.st.curr.toNat = l.i ∧ passes m.st.curr.toNat = 0) ∧
      ∀ l, m.pc = .hold l → l.i = cursor (current m.st.toBook).length (passes m.st.curr.toNat) := by
  have hk : Plain (run plainWorld smallTable [.p 3, .M 2, .e 1, .t 3] (fun _ => 0) () 10).st.accessType := by
    rw [show (run plainWorld smallTable [.p 3, .M 2, .e 1, .t 3] (fun _ => 0) () 10).st.accessType = 3 by
      decide +kernel]
    exact ⟨by decide, by decide⟩
  exact writes_by_phase plainWorld smallTable smallTable_page smallTable_short
    [.p 3, .M 2, .e 1, .t 3] (fun _ => 0) () 10 (by decide +kernel) hk

end Gobbler.Proofs
