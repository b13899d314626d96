import Gobbler.Proofs.Runs

namespace Gobbler.Proofs
open Effect

variable {γ : Type} {w : World γ} {b : Book} {m : Machine γ}

/-- The machine ends no run: its draws end, and what is asked for is given. -/
structure Willing (w : World γ) : Prop where
  draws : Draws w
  opens : ∀ n, w.opens n = true
  mmap : ∀ n, w.mmap n ≠ none
  madvise : ∀ n, w.madvise n = true
  malloc : ∀ n, w.malloc n = true

theorem Willing.not_forced (hw : Willing w) {h : Halt} : ¬Forced w h := by
  intro hf
  cases hf with
  | draw h => exact h hw.draws
  | path h => exact absurd (h.symm.trans (hw.opens _)) Bool.noConfusion
  | mmap h => exact hw.mmap _ h
  | madvise h => exact absurd (h.symm.trans (hw.madvise _)) Bool.noConfusion
  | malloc h => exact absurd (h.symm.trans (hw.malloc _)) Bool.noConfusion

theorem Willing.no_trouble (hw : Willing w) {h : Halt} (hin : InTracker b) (hs : Sized w b) :
    ¬Trouble w b h := by
  intro ht
  cases ht with
  | touch _ sized => exact hw.not_forced (sized hs)
  | track hout => exact hout hin

theorem Move.of_hold {b' : Book} {l : HoldLocals} {pc : Pc} (h : Move w ⟨b, .hold l⟩ ⟨b', pc⟩) :
    (b' = { b with num := b'.num } ∧ ∃ l', pc = .hold l') ∨
      (b' = { b with phaseCnt := b.phaseCnt + 1 } ∧ pc = .main) ∨
      ∃ e, pc = .stopped e ∧ Trouble w b e := by
  cases h with
  | idle hi =>
    cases hi with
    | hold num _ => exact .inl ⟨rfl, _, rfl⟩
    | holdHalt why => exact .inr (.inr ⟨_, rfl, why⟩)
    | held => exact .inr (.inl ⟨rfl, rfl⟩)

/-- A pass of `loop_for` takes a later reading of the clock and adds what went by. -/
theorem loopForPass_clock (l : HoldLocals) (s : St γ) :
    Ends (loopForPass w l) s
      (fun l' t => l'.t = l.t ∧ l'.execTime = l.execTime ∧ ∃ k, s.cpuReads ≤ k ∧
        t.cpuReads = k + 1 ∧ l'.now = cpuTime w l.t k ∧ l'.run = l.run + (l'.now - l.now))
      (fun _ _ => True) := by
  unfold loopForPass
  rw [ends_bind]
  refine (loopForTouch_ends l.i s).mono ?_ fun _ _ _ => trivial
  intro i t ht
  rw [ends_bind]
  refine (loopOnce_ends _ t).mono ?_ fun _ _ h => h.elim
  rintro j _ ⟨num, rfl⟩
  rw [ends_bind]
  refine (cputime_ends l.t _).mono ?_ fun _ _ h => h.elim
  rintro now _ ⟨rfl, rfl⟩
  exact ⟨rfl, rfl, t.cpuReads, ht.kept.reads, rfl, rfl, rfl⟩

/-- A holding state whose time is over once the clock was read `last` times. -/
structure Holding (w : World γ) (b : Book) (last : Nat) (l : HoldLocals) (m : Machine γ) :
    Prop where
  pc : m.pc = .hold l
  book : m.st.toBook = { b with num := m.st.num }
  clock : ∀ k, last ≤ k → l.execTime ≤ l.run + (cpuTime w l.t k - l.now)

/-- A machine that is back in `main` after a holding state. -/
def Held (b : Book) (m : Machine γ) : Prop :=
  m.pc = .main ∧ m.st.toBook = { b with num := m.st.num, phaseCnt := b.phaseCnt + 1 }

theorem Holding.over {last : Nat} {l : HoldLocals} (h : Holding w b last l m)
    (hover : l.execTime ≤ l.run) : Held b (step w m) := by
  apply step_of_ends
  rw [h.pc]
  simp only [turn, if_neg (not_lt.mpr hover)]
  refine ⟨rfl, ?_⟩
  change { m.st.toBook with phaseCnt := m.st.phaseCnt + 1 } = _
  rw [h.book]

/-- A trouble of a holding state is one of the books it started with. -/
theorem Trouble.of_num {num : List Int} {h : Halt} (ht : Trouble w { b with num := num } h) :
    Trouble w b h := by
  cases ht with
  | touch why sized => exact .touch why fun hs => sized ⟨hs.page, hs.access, hs.size⟩
  | track hout => exact .track hout

theorem Holding.pass {last : Nat} {l : HoldLocals} (h : Holding w b last l m)
    (hleft : l.run < l.execTime) :
    (∃ l', Holding w b last l' (step w m) ∧ m.st.cpuReads < (step w m).st.cpuReads ∧
        (last ≤ m.st.cpuReads → l'.execTime ≤ l'.run)) ∨
      ∃ e, (step w m).pc = .stopped e ∧ Trouble w b e := by
  have hbook := h.book
  refine step_of_ends (P := fun t => (∃ l', Holding w b last l' t ∧ m.st.cpuReads < t.st.cpuReads ∧
    (last ≤ m.st.cpuReads → l'.execTime ≤ l'.run)) ∨ ∃ e, t.pc = .stopped e ∧ Trouble w b e) ?_
  rw [h.pc]
  simp only [turn, if_pos hleft]
  rw [ends_bind]
  refine ((loopForPass_turned m.st l).and (loopForPass_clock l m.st)).mono ?_ ?_
  · intro l' t hq
    obtain ⟨ht, hg, he, k, hk, hreads, hnow, hrun⟩ := hq
    have hclock : ∀ n, l'.run + (cpuTime w l'.t n - l'.now) = l.run + (cpuTime w l.t n - l.now) := by
      intro n
      rw [hrun, hg]
      ring
    refine .inl ⟨l', ⟨rfl, ?_, ?_⟩, ?_, ?_⟩
    · obtain ⟨hnum, _⟩ | ⟨_, hpc⟩ | ⟨_, hpc, _⟩ := ht.move.of_hold
      · rw [hbook] at hnum
        exact hnum
      · cases hpc
      · cases hpc
    · intro n hn
      rw [he, hclock]
      exact h.clock n hn
    · simp only [hreads]
      omega
    · intro hlast
      rw [he, hrun, hnow]
      exact h.clock k (Nat.le_trans hlast hk)
  · intro e t hq
    obtain ⟨ht, _⟩ := hq
    obtain ⟨_, _, hpc⟩ | ⟨_, hpc⟩ | ⟨_, hpc, why⟩ := ht.move.of_hold
    · cases hpc
    · cases hpc
    · rw [hbook] at why
      exact .inr ⟨_, hpc, why.of_num⟩

/-- A holding state ends, in `main` or with trouble. -/
theorem holding_leads {last : Nat} :
    System.Leads (step w) (fun m => ∃ l, Holding w b last l m)
      (fun m => Held b m ∨ ∃ e, m.pc = .stopped e ∧ Trouble w b e) := by
  refine System.Leads.of_measure (fun m => last - m.st.cpuReads) ?_
  intro k m hq
  obtain ⟨⟨l, h⟩, hk⟩ := hq
  by_cases hover : l.execTime ≤ l.run
  · exact ⟨1, .inl (.inl (h.over hover))⟩
  · obtain ⟨l', h', hreads, hdone⟩ | hstop := h.pass (not_le.mp hover)
    · by_cases hlast : last ≤ m.st.cpuReads
      · exact ⟨2, .inl (.inl (h'.over (hdone hlast)))⟩
      · exact ⟨1, .inr ⟨⟨l', h'⟩, show last - (step w m).st.cpuReads < k by omega⟩⟩
    · exact ⟨1, .inl (.inr hstop)⟩

theorem Move.of_done {b' : Book} {e : ℚ} {t : Granularity} {l : TransLocals} {pc : Pc}
    (h : Move w ⟨b, .trans e t l⟩ ⟨b', pc⟩) (done : l.cnt = 0) (hin : InTracker b) :
    b' = left b ∧ ∃ n i, pc = .hold ⟨e, t, cpuTime w t n, 0, i, 0⟩ := by
  cases h with
  | idle hi =>
    cases hi with
    | leave _ _ => exact ⟨rfl, _, _, rfl⟩
    | leaveHalt _ hout => exact absurd hin hout
  | request more _ | trouble more _ _ _ | aborted more _ => exact absurd done more

/-- A phase without requests left comes back to `main`. -/
theorem phase_ends {e : ℚ} {t : Granularity} {l : TransLocals} (hw : Willing w)
    (hok : Ok (view m)) (hpc : m.pc = .trans e t l) (done : l.cnt = 0)
    (hin : InTracker m.st.toBook) (hs : Sized w m.st.toBook)
    (hclock : ∀ n i, (step w m).pc = .hold ⟨e, t, cpuTime w t n, 0, i, 0⟩ →
      ∃ last, ∀ k, last ≤ k → e ≤ cpuTime w t k - cpuTime w t n) :
    ∃ n, Held (left m.st.toBook) ((step w)^[n] m) := by
  have hmove := (step_turned (w := w) hok).move
  rw [hpc] at hmove
  obtain ⟨hleft, n, i, hhold⟩ := hmove.of_done done hin
  obtain ⟨last, hlast⟩ := hclock _ _ hhold
  have hstart : Holding w (left m.st.toBook) last ⟨e, t, cpuTime w t n, 0, i, 0⟩ (step w m) := by
    refine ⟨hhold, by rw [hleft], fun k hk => ?_⟩
    rw [zero_add]
    exact hlast k hk
  have hin' : InTracker (left m.st.toBook) := hin
  have hs' : Sized w (left m.st.toBook) := ⟨hs.page, hs.access, hs.size⟩
  obtain ⟨n, hheld | ⟨_, _, why⟩⟩ := holding_leads _ ⟨_, hstart⟩
  · exact ⟨n + 1, hheld⟩
  · exact absurd why (hw.no_trouble hin' hs')

theorem Located.of_line {b' : Book} {line rest : List Char} {cnt : Nat} {t : ℚ}
    (h : Located b b') (hv : b.vector = true) (hg : getline b.vectorStream = some (line, rest))
    (hp : parseLine b.ipfvt line = some (cnt, t)) :
    ∃ rows, b' = limited (relined b rest cnt t) rows := by
  obtain ⟨rows, hvec | ⟨_, hg', hp'⟩⟩ := h
  · exact absurd (hv.symm.trans hvec) Bool.noConfusion
  · rw [hg, Option.some.injEq, Prod.mk.injEq] at hg'
    obtain ⟨rfl, rfl⟩ := hg'
    rw [hp, Option.some.injEq, Prod.mk.injEq] at hp'
    obtain ⟨rfl, rfl⟩ := hp'
    exact ⟨rows, rfl⟩

/-- Before the limits are reached, a line of the vector begins a phase or is skipped. -/
theorem Move.of_line {b' : Book} {pc : Pc} {line rest : List Char} {cnt : Nat} {t : ℚ}
    (h : Move w ⟨b, .main⟩ ⟨b', pc⟩) (hw : Willing w) (hv : b.vector = true)
    (hg : getline b.vectorStream = some (line, rest))
    (hp : parseLine b.ipfvt line = some (cnt, t)) (hint : b.curJob + 1 < 2 ^ 31)
    (hphase : b.curJob + 1 < b.maxPhase) (hno : b.allocNomore = false)
    (hlim : wrap (b.fileCnt + b.anonCnt) ≤ b.maxLimit) (hroom : b.curr < maxAlloc) :
    ∃ rows, (∃ i, b' = opened (called (limited (relined b rest cnt t) rows)) cnt ∧
        pc = .trans t b.timeG ⟨cnt, i, -1⟩) ∨
      (Late w b.timeG t ∧ b' = passedOver (limited (relined b rest cnt t) rows) ∧ pc = .main) := by
  have hgo : ∀ rows, ¬Over (limited (relined b rest cnt t) rows) := by
    intro rows hover
    rcases hover with hmax | hnomore
    · exact absurd hphase (Nat.not_lt_of_le hmax)
    · simp only [limited, relined, hno, Bool.false_or, decide_eq_true_eq] at hnomore
      exact absurd hnomore (Nat.not_lt_of_le hlim)
  cases h with
  | idle hi =>
    cases hi with
    | ended _ empty => exact absurd (hg.symm.trans empty) (by simp)
    | unread _ got unparsed =>
      rw [hg, Option.some.injEq, Prod.mk.injEq] at got
      obtain ⟨rfl, rfl⟩ := got
      exact absurd (hp.symm.trans unparsed) (by simp)
  | finish located stop =>
    obtain ⟨rows, rfl⟩ := located.of_line hv hg hp
    exact absurd stop (hgo rows)
  | overrun located high =>
    obtain ⟨rows, rfl⟩ := located.of_line hv hg hp
    exact absurd hint (Nat.not_lt_of_le high)
  | skip located _ late =>
    obtain ⟨rows, rfl⟩ := located.of_line hv hg hp
    exact ⟨rows, .inr ⟨late, rfl, rfl⟩⟩
  | enter located _ _ start =>
    obtain ⟨rows, rfl⟩ := located.of_line hv hg hp
    cases start with
    | precise _ => exact ⟨rows, .inl ⟨_, rfl, rfl⟩⟩
    | drawn hp' _ _ => exact absurd hp' (by simp [called, limited, relined])
  | enterHalt located _ why =>
    obtain ⟨rows, rfl⟩ := located.of_line hv hg hp
    rcases why with hf | ⟨_, hfull⟩
    · exact absurd hf hw.not_forced
    · exact absurd hroom (Int.not_lt.mpr hfull)

/-- A request of a machine that ends no run is refused or served, or it finds the list
of its phase full. -/
theorem Move.of_request_or_full {b' : Book} {e : ℚ} {t : Granularity} {l : TransLocals} {pc : Pc}
    (h : Move w ⟨b, .trans e t l⟩ ⟨b', pc⟩) (hw : Willing w) (more : l.cnt ≠ 0)
    (hin : InTracker b) (hcnt : b.typeCnt + 1 < 2 ^ 31)
    (hs : ∀ typ cnt led, Request w.pageSize b l.anonSlice l.cnt typ cnt led →
      InTracker (withLedger b led) ∧ Sized w (withLedger b led)) :
    (∃ typ cnt led, Request w.pageSize b l.anonSlice l.cnt typ cnt led ∧ b' = withLedger b led ∧
      pc = .trans e t (nextLocals l typ cnt)) ∨
    (maxAllocPerSe ≤ (current b).length ∧ pc = .stopped (.exit "Failed to add new tracker")) := by
  cases h with
  | idle hi =>
    cases hi with
    | leave done _ | leaveHalt done _ => exact absurd done more
  | request _ request => exact .inl ⟨_, _, _, request, rfl, rfl⟩
  | trouble _ request _ why =>
    obtain ⟨hin', hs'⟩ := hs _ _ _ request
    exact absurd why (hw.no_trouble hin' hs')
  | aborted _ aborted =>
    cases aborted with
    | early why _ =>
      cases why with
      | forced hf => exact absurd hf hw.not_forced
      | overflow hover => exact absurd hover (Nat.not_le_of_lt hcnt)
      | track hout => exact absurd hin hout
    | full _ full => exact .inr ⟨full, rfl⟩

/-- With room in the list it is refused or served. -/
theorem Move.of_request {b' : Book} {e : ℚ} {t : Granularity} {l : TransLocals} {pc : Pc}
    (h : Move w ⟨b, .trans e t l⟩ ⟨b', pc⟩) (hw : Willing w) (more : l.cnt ≠ 0)
    (hin : InTracker b) (hroom : (current b).length < maxAllocPerSe)
    (hcnt : b.typeCnt + 1 < 2 ^ 31)
    (hs : ∀ typ cnt led, Request w.pageSize b l.anonSlice l.cnt typ cnt led →
      InTracker (withLedger b led) ∧ Sized w (withLedger b led)) :
    ∃ typ cnt led, Request w.pageSize b l.anonSlice l.cnt typ cnt led ∧ b' = withLedger b led ∧
      pc = .trans e t (nextLocals l typ cnt) :=
  (h.of_request_or_full hw more hin hcnt hs).resolve_right fun hfull =>
    Nat.not_le_of_lt hroom hfull.1

theorem Move.of_end {b' : Book} {pc : Pc} (h : Move w ⟨b, .main⟩ ⟨b', pc⟩)
    (hv : b.vector = true) (hg : getline b.vectorStream = none) : b' = b ∧ pc = .stopped .returned := by
  have hno : ∀ {c : Book}, ¬Located b c := by
    rintro _ ⟨_, hvec | ⟨_, got, _⟩⟩
    · exact absurd (hv.symm.trans hvec) Bool.noConfusion
    · exact absurd (hg.symm.trans got) (by simp)
  cases h with
  | idle hi =>
    cases hi with
    | ended => exact ⟨rfl, rfl⟩
    | unread _ got _ => exact absurd (hg.symm.trans got) (by simp)
  | finish located _ | overrun located _ | skip located _ _ | enter located _ _ _
  | enterHalt located _ _ =>
    exact absurd located hno

/-- A machine on which every draw is zero and no clock moves. -/
def calmWorld : World Unit :=
  { plainWorld with
    cpu := fun _ => ⟨0, 0, whole_nsec⟩
    wall := fun _ => ⟨0, 0, whole_usec⟩ }

/-- A draw of zero is accepted at once. -/
theorem draws_of_zero (hrand : ∀ g, (w.rand g).1 = 0) (hp : 0 < w.patience) : Draws w := by
  intro limit s hlow hhigh
  have hd := randLim_divisor hlow hhigh
  have hsum : limit + 1 ≠ 0 := by omega
  have hzero : ¬limit ≤ 0 := by omega
  obtain ⟨n, hn⟩ := Nat.exists_eq_succ_of_ne_zero (Nat.ne_of_gt hp)
  unfold randLim note defined reseed cputime
  simp only [if_pos hsum, if_pos (ne_of_gt hd), ends_bind, ends_modify, ends_pure, ends_get, ends_set]
  rw [hn]
  unfold randLimLoop rand
  simp only [ends_bind, ends_get, ends_set, ends_pure, hrand]
  rw [ends_ite]
  refine ⟨fun hle => absurd ?_ hzero, fun _ => trivial⟩
  simpa using hle

theorem plainWorld_willing : Willing plainWorld :=
  ⟨draws_of_zero (fun _ => rfl) Nat.one_pos, fun _ => rfl, fun _ => by simp [plainWorld],
    fun _ => rfl, fun _ => rfl⟩

theorem calmWorld_willing : Willing calmWorld :=
  ⟨draws_of_zero (fun _ => rfl) Nat.one_pos, fun _ => rfl, fun _ => by simp [calmWorld, plainWorld],
    fun _ => rfl, fun _ => rfl⟩

end Gobbler.Proofs
