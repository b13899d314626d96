import Gobbler.Lib.System
import Gobbler.Proofs.Moves

namespace Gobbler.Proofs
open Effect

variable {γ : Type} {w : World γ}

/-- What a move relies on: usable class indices, and no record before `main`. -/
structure Ok (v : View) : Prop where
  ready : Ready v.book
  booting : ∀ opts, v.pc = .boot opts → v.book.allocTrack = fun _ => []

/-- No byte was written, and the calls were safe. -/
structure Still (s t : St γ) : Prop where
  memory : t.toMemory = s.toMemory
  calls : CallsSafe s t
  length : t.fileLst.length = s.fileLst.length

theorem Still.refl (s : St γ) : Still s s := ⟨rfl, fun _ h => .inl h, rfl⟩

theorem Still.trans {s t u : St γ} (h : Still s t) (h' : Still t u) : Still s u :=
  ⟨h'.memory.trans h.memory, h.calls.trans h.length h'.calls, h'.length.trans h.length⟩

theorem Quiet.still {s t : St γ} (h : Quiet s t) : Still s t :=
  ⟨h.memory, h.calls, by rw [h.fileLst]⟩

theorem Still.wrote {s t : St γ} (h : Still s t) : Wrote s t := by
  have hm : t.mem = s.mem := congrArg Memory.mem h.memory
  have hw : t.writes = s.writes := congrArg Memory.writes h.memory
  have hf : t.fixHead = s.fixHead := congrArg Memory.fixHead h.memory
  exact ⟨fun a _ => congrFun hm a, fun _ he => .inl (hw ▸ he), fun _ hn => .inl (hf ▸ hn), h.calls⟩

/-- A turn from `pc` to `pc'` does what the moves say, makes safe calls, and
writes only to mappings of the phase it ends in. -/
structure Turned (w : World γ) (s : St γ) (pc : Pc) (t : St γ) (pc' : Pc) : Prop where
  move : Move w ⟨s.toBook, pc⟩ ⟨t.toBook, pc'⟩
  calls : Usable w t.toBook → CallsSafe s t
  wrote : Sized w t.toBook → FixSound t.toBook s.fixHead → Wrote s t

theorem Turned.still {s t : St γ} {pc pc' : Pc}
    (hm : Move w ⟨s.toBook, pc⟩ ⟨t.toBook, pc'⟩) (hs : Still s t) : Turned w s pc t pc' :=
  ⟨hm, fun _ => hs.calls, fun _ _ => hs.wrote⟩

theorem Configured.refl (b : Book) : Configured b b :=
  ⟨fun _ => rfl, id, id, id, id, rfl, rfl, rfl, rfl, rfl, rfl, rfl, rfl, rfl⟩

theorem Configured.trans {b b' b'' : Book} (h : Configured b b') (h' : Configured b' b'') :
    Configured b b'' := by
  refine ⟨fun he => ?_, h'.ready ∘ h.ready, h'.access ∘ h.access, h'.budget ∘ h.budget,
    h'.fits ∘ h.fits, h'.transition.trans h.transition, h'.nomore.trans h.nomore, h'.curJob.trans h.curJob,
    h'.phaseCnt.trans h.phaseCnt, h'.num.trans h.num, h'.budgets.trans h.budgets,
    h'.jobs.trans h.jobs, h'.skipped.trans h.skipped, h'.rows.trans h.rows⟩
  have hl := h.ledger he
  exact (h'.ledger ((congrArg Ledger.allocTrack hl).trans he)).trans hl

structure Setup (s t : St γ) : Prop where
  configured : Configured s.toBook t.toBook
  still : Still s t

instance : IsPreorder (St γ) Setup where
  refl s := ⟨Configured.refl _, Still.refl s⟩
  trans _ _ _ h h' := ⟨h.configured.trans h'.configured, h.still.trans h'.still⟩

theorem speed_lt {length n : Nat} (h : 0 < length) (hl : length < 2 ^ 31) :
    (if length ≤ n then wrapSub length 1 else n) < length := by
  have hw : wrapSub length 1 = length - 1 := wrapSub_of_le (by omega) (by omega)
  split
  · omega
  · omega

theorem Configured.of_ready {b b' : Book} (hl : b'.toLedger = b.toLedger)
    (hr : Ready b → Ready b') (ha : b.accessType < 5 → b'.accessType < 5)
    (hb : Budgeted b → Budgeted b') (hn : b.maxAllocPerPhase < 2 ^ 64 → b'.maxAllocPerPhase < 2 ^ 64)
    (hf : b' = { b with
      toOptions := b'.toOptions
      maxAllocPerPhase := b'.maxAllocPerPhase
      allocPrecision := b'.allocPrecision
      maxAllocPerPhaseByte := b'.maxAllocPerPhaseByte
      vectorStream := b'.vectorStream
      wcetMs := b'.wcetMs
      start := b'.start }) : Configured b b' := by
  refine ⟨fun _ => hl, hr, ha, hb, hn, ?_, ?_, ?_, ?_, ?_, ?_, ?_, ?_, ?_⟩
  all_goals rw [hf]

theorem option_setup (o : Opt) : Yields Setup BootHalt (fun _ => True) (option o : M γ PUnit) := by
  have hstill : ∀ (s : St γ) (b : Book), b.fileLst = s.fileLst → Still s { s with toBook := b } := by
    intro s b hb
    exact ⟨rfl, fun _ h => .inl h, by simp only [hb]⟩
  have hplain : ∀ b b' : Book, b'.toLedger = b.toLedger → b'.speed = b.speed → Ready b → Ready b' := by
    intro b b' hl hs hr
    have hf : b'.fileLst = b.fileLst := congrArg Ledger.fileLst hl
    exact ⟨by rw [hs, hf]; exact hr.speed, by rw [hf]; exact hr.length⟩
  cases o with
  | p | l | v | e | I | S | L =>
    exact yields_modify fun s => ⟨.of_ready rfl (hplain _ _ rfl rfl) id id id rfl, hstill s _ rfl⟩
  | h => exact yields_throw .usage
  | M n =>
    exact yields_modify fun s =>
      ⟨.of_ready rfl (hplain _ _ rfl rfl) id (fun _ => .inr ⟨rfl, rfl⟩) (fun _ => ofLong_lt n) rfl,
        hstill s _ rfl⟩
  | s n =>
    refine yields_modify fun s => ⟨.of_ready rfl (fun hr => ⟨?_, hr.length⟩) id id id rfl,
      hstill s _ rfl⟩
    exact speed_lt (Nat.lt_of_le_of_lt (Nat.zero_le _) hr.speed) hr.length
  | t n =>
    refine yields_ite (fun _ => yields_throw .access) fun h => yields_modify fun s => ?_
    exact ⟨.of_ready rfl (hplain _ _ rfl rfl) (fun _ => Nat.lt_of_not_le h) id id rfl, hstill s _ rfl⟩
  | A n =>
    refine yields_modify fun s => ⟨.of_ready rfl (hplain _ _ rfl rfl) id ?_ id rfl, hstill s _ rfl⟩
    rintro (hb | hb)
    · exact .inl hb
    · exact .inr ⟨rfl, hb.2⟩
  | V bytes =>
    cases bytes with
    | none => exact yields_throw .file
    | some bytes =>
      exact yields_modify fun s => ⟨.of_ready rfl (hplain _ _ rfl rfl) id id id rfl, hstill s _ rfl⟩

theorem options_setup (opts : List Opt) :
    Yields Setup BootHalt (fun _ => True) (options opts : M γ PUnit) := by
  induction opts with
  | nil => exact yields_pure trivial
  | cons o os ih => exact yields_seq (option_setup o) fun _ => ih

theorem Quiet.setup {s t : St γ} (h : Quiet s t) : Setup s t :=
  ⟨h.book ▸ Configured.refl _, h.still⟩

theorem writeStmaLtma_yields (stma ltma : Nat) :
    Yields Eq BootHalt (fun _ => True) (writeStmaLtma w stma ltma) := by
  unfold writeStmaLtma
  split
  · exact yields_pure trivial
  · exact yields_throw .notOpened
  · exact yields_throw .notWritten
  · exact yields_throw .notReopened
  · exact yields_throw .notTaken

theorem resetStmaLtma_yields (stma ltma : Nat) :
    Yields Eq BootHalt (fun _ => True) (resetStmaLtma w stma ltma) :=
  yields_ite (fun _ => yields_throw .zero) fun _ =>
    yields_ite (fun _ => writeStmaLtma_yields _ _) fun _ => yields_throw .wrong

theorem allocTrackInit_setup :
    Yields Setup BootHalt (fun _ => True) (allocTrackInit w) := by
  refine yields_ite (fun _ => yields_modify fun s => ?_) fun _ => yields_throw .memory
  refine ⟨⟨fun h => ?_, fun h => ⟨h.speed, h.length⟩, id, id, id, rfl, rfl, rfl, rfl, rfl, rfl, rfl, rfl,
    rfl⟩, rfl, fun _ h => .inl h, rfl⟩
  simp only [← h]

theorem mainEnter_setup (opts : List Opt) :
    Yields Setup BootHalt (· = .main) (mainEnter w opts) := by
  have hplain : ∀ (wcetMs start : ℚ) (s : St γ),
      Setup s { s with wcetMs := wcetMs, start := start } := fun _ _ s =>
    ⟨.of_ready rfl (fun h => ⟨h.speed, h.length⟩) id id id rfl, rfl, fun _ h => .inl h, rfl⟩
  refine yields_seq (options_setup opts) fun _ => yields_seq yields_get fun s => ?_
  refine yields_seq (yields_modify fun s => hplain _ s.start s) fun _ => yields_seq ?_ fun start => ?_
  · exact (wctime_quiet (X := BootHalt) s.timeG).mono (fun _ _ h => h.setup) (fun _ h => h)
      fun _ h => h
  refine yields_seq (yields_modify fun s => hplain s.wcetMs start s) fun _ => ?_
  refine yields_seq allocTrackInit_setup fun _ => ?_
  refine yields_ite (fun _ => yields_seq ?_ fun _ => yields_pure rfl) fun _ => yields_pure rfl
  refine (resetStmaLtma_yields _ _).mono ?_ (fun _ h => h) fun _ h => h
  rintro s _ rfl
  exact refl_of Setup s

theorem option_started (o : Opt) (s : St γ) :
    Ends (option o) s (fun _ t => Started [o] s.toBook t.toBook) (fun _ _ => True) := by
  cases o with
  | t n => exact ends_ite.mpr ⟨fun _ => trivial, fun _ => ⟨rfl, rfl, rfl, rfl, rfl⟩⟩
  | V bytes =>
    cases bytes with
    | none => exact trivial
    | some bytes => exact ⟨rfl, rfl, rfl, rfl, rfl⟩
  | h => exact trivial
  | _ => exact ⟨rfl, rfl, rfl, rfl, rfl⟩

theorem Started.cons {o : Opt} {os : List Opt} {b b' b'' : Book} (h : Started [o] b b')
    (h' : Started os b' b'') : Started (o :: os) b b'' :=
  ⟨h'.phases.trans (congrArg (os.foldl phasesSet) h.phases),
    h'.vector.trans (congrArg (os.foldl vectorSet) h.vector),
    h'.trace.trans (congrArg (os.foldl traceSet) h.trace),
    h'.unit.trans (congrArg (os.foldl unitSet) h.unit),
    h'.wcet.trans (congrArg (os.foldl wcetSet) h.wcet)⟩

theorem options_started (opts : List Opt) (s : St γ) :
    Ends (options opts) s (fun _ t => Started opts s.toBook t.toBook) (fun _ _ => True) := by
  induction opts generalizing s with
  | nil => exact ⟨rfl, rfl, rfl, rfl, rfl⟩
  | cons o os ih =>
    unfold options
    apply (option_started o s).bind
    intro _ t ht
    exact (ih t).mono (fun _ _ h => ht.cons h) fun _ _ h => h

theorem mainEnter_started (opts : List Opt) (s : St γ) :
    Ends (mainEnter w opts) s (fun _ t => Entered opts s.toBook t.toBook) (fun _ _ => True) := by
  unfold mainEnter
  apply (options_started opts s).bind
  intro _ t ht
  simp only [ends_bind, ends_get, ends_modify]
  refine (wctime_quiet (X := fun _ => True) _ _).mono ?_ fun _ _ _ => trivial
  intro start u hq'
  obtain ⟨hq, _⟩ := hq'
  have hu : Entered opts s.toBook u.toBook := by
    rw [hq.book]
    exact ⟨⟨ht.phases, ht.vector, ht.trace, ht.unit, ht.wcet⟩, rfl⟩
  unfold allocTrackInit
  rw [ends_ite]
  refine ⟨fun _ => ?_, fun _ => trivial⟩
  rw [ends_modify, ends_ite]
  refine ⟨fun _ => ?_, fun _ => ⟨⟨hu.phases, hu.vector, hu.trace, hu.unit, hu.wcet⟩, hu.time⟩⟩
  rw [ends_bind]
  refine (resetStmaLtma_yields _ _ _).mono ?_ fun _ _ _ => trivial
  rintro _ _ ⟨rfl, _⟩
  exact ⟨⟨hu.phases, hu.vector, hu.trace, hu.unit, hu.wcet⟩, hu.time⟩

theorem mainEnter_turned (opts : List Opt) {s : St γ} (hok : Ok ⟨s.toBook, .boot opts⟩) :
    Ends (mainEnter w opts) s (fun pc t => Turned w s (.boot opts) t pc)
      (fun h t => Turned w s (.boot opts) t (.stopped h)) := by
  refine ((mainEnter_setup opts s).and (mainEnter_started opts s)).mono ?_ ?_
  · intro pc t hq
    obtain ⟨⟨hs, hpc⟩, hstart⟩ := hq
    exact .still (.boot hs.configured (hs.configured.ledger (hok.booting opts rfl)) (.inl hpc)
      fun _ => hstart) hs.still
  · intro h t hq
    obtain ⟨⟨hs, hh⟩, _⟩ := hq
    exact .still (.boot hs.configured (hs.configured.ledger (hok.booting opts rfl))
      (.inr ⟨h, rfl, hh⟩) fun hpc => by cases hpc) hs.still

theorem token_ends (t : Option (List Char)) (s : St γ) :
    Ends (token t) s (fun a u => t = some a ∧ u = s)
      (fun h u => h = .undefined .nullToken ∧ t = none ∧ u = s) := by
  cases t with
  | none => exact ⟨rfl, rfl, rfl⟩
  | some a => exact ⟨rfl, rfl⟩

/-- `line` was taken from the vector. -/
def Took (s t : St γ) (line : List Char) : Prop :=
  ∃ rest, getline s.vectorStream = some (line, rest) ∧ t = { s with vectorStream := rest }

theorem Took.still {s t : St γ} {line : List Char} (h : Took s t line) : Still s t := by
  obtain ⟨rest, _, rfl⟩ := h
  exact ⟨rfl, fun _ h => .inl h, rfl⟩

/-- A vector line is parsed, or one of its tokens is missing. -/
theorem getNxtAlloc_ends (isIpfvt : Bool) (s : St γ) :
    Ends (getNxtAlloc isIpfvt) s
      (fun r t => (r = none ∧ t = s ∧ getline s.vectorStream = none) ∨
        ∃ line p, Took s t line ∧ parseLine isIpfvt line = some p ∧ r = some p)
      (fun h t => h = .undefined .nullToken ∧
        ∃ line, Took s t line ∧ parseLine isIpfvt line = none) := by
  unfold getNxtAlloc
  simp only [ends_bind, ends_get]
  cases hg : getline s.vectorStream with
  | none => exact .inl ⟨rfl, rfl, rfl⟩
  | some got =>
    obtain ⟨line, rest⟩ := got
    have htook : Took s { s with vectorStream := rest } line := ⟨rest, hg, rfl⟩
    simp only [ends_bind, ends_set]
    cases isIpfvt with
    | true =>
      simp only [if_true, ends_bind, ends_pure]
      refine (token_ends _ _).mono ?_ ?_
      · intro t u hq
        obtain ⟨ht, hu⟩ := hq
        exact .inr ⟨line, _, hu ▸ htook, by simp [parseLine, ht], rfl⟩
      · intro h u hq
        obtain ⟨hh, ht, hu⟩ := hq
        exact ⟨hh, line, hu ▸ htook, by simp [parseLine, ht]⟩
    | false =>
      simp only [Bool.false_eq_true, if_false, ends_bind, ends_pure]
      refine (token_ends _ _).mono ?_ ?_
      · intro first u hq
        obtain ⟨hfirst, hu⟩ := hq
        refine (token_ends _ _).mono ?_ ?_
        · intro t v hq
          obtain ⟨ht, hv⟩ := hq
          exact .inr ⟨line, _, hv ▸ hu ▸ htook, by simp [parseLine, hfirst, ht], rfl⟩
        · intro h v hq
          obtain ⟨hh, ht, hv⟩ := hq
          exact ⟨hh, line, hv ▸ hu ▸ htook, by simp [parseLine, ht]⟩
      · intro h u hq
        obtain ⟨hh, hfirst, hu⟩ := hq
        exact ⟨hh, line, hu ▸ htook, by simp [parseLine, hfirst]⟩

/-- The vector line of a locality is read, the vector is at its end, or a token
of the line is missing. -/
theorem nextLocality_ends (s : St γ) :
    Ends nextLocality s
      (fun go t => Still s t ∧ ((go = true ∧ Lined s.toBook t.toBook) ∨
        (go = false ∧ s.vector = true ∧ getline s.vectorStream = none ∧ t = s)))
      (fun h t => Turned w s .main t (.stopped h)) := by
  unfold nextLocality
  simp only [ends_bind, ends_get]
  rw [ends_ite]
  refine ⟨fun hv => ?_, fun hv => ?_⟩
  · rw [ends_bind]
    refine (getNxtAlloc_ends s.ipfvt s).mono ?_ ?_
    · intro r t hr
      rcases hr with ⟨rfl, rfl, hg⟩ | ⟨line, p, htook, hp, rfl⟩
      · exact ⟨Still.refl t, .inr ⟨rfl, hv, hg, rfl⟩⟩
      · obtain ⟨rest, hg, rfl⟩ := htook
        exact ⟨⟨rfl, fun _ h => .inl h, rfl⟩, .inl ⟨rfl, .line hv hg hp⟩⟩
    · intro h t hq
      obtain ⟨hh, line, htook, hp⟩ := hq
      subst hh
      have hs := htook.still
      obtain ⟨rest, hg, rfl⟩ := htook
      exact .still (.idle (.unread hv hg hp)) hs
  · exact ⟨Still.refl s, .inl ⟨rfl, .plain (by simpa using hv)⟩⟩

theorem report_ends (s : St γ) :
    Ends (report w) s
      (fun _ t => Still s t ∧ ∃ rows, t.toBook = { s.toBook with rows := rows })
      (fun _ _ => False) := by
  unfold report
  simp only [ends_bind, ends_get]
  rw [ends_ite]
  refine ⟨fun _ => ?_, fun _ => ⟨Still.refl s, s.rows, rfl⟩⟩
  exact ⟨⟨rfl, fun _ h => .inl h, rfl⟩, _, rfl⟩

theorem goToNxtPhase_ends (s : St γ) :
    Ends goToNxtPhase s
      (fun _ t => s.curr < maxAlloc ∧ t = { s with curr := s.curr + 1 })
      (fun h t => (h = .exit "reached maximum phase transitions\n" ∧ (maxAlloc : Int) ≤ s.curr) ∧
        t = s) := by
  unfold goToNxtPhase
  simp only [ends_bind, ends_get]
  rw [ends_ite]
  exact ⟨fun h => ⟨⟨rfl, h⟩, rfl⟩, fun h => ⟨Int.lt_of_not_ge h, rfl⟩⟩

theorem randomizeAllocCount_ends (s : St γ) :
    Ends (randomizeAllocCount w s.allocPrecision) s
      (fun cnt t => Quiet s t ∧
        Start s.toBook cnt (if s.allocPrecision then -1 else (cnt / fileRatio : Nat)))
      (fun _ _ => False) := by
  unfold randomizeAllocCount
  simp only [ends_bind, ends_get]
  rw [ends_ite]
  refine ⟨fun h => ⟨Quiet.refl s, ?_⟩, fun h => ?_⟩
  · rw [if_pos h]
    exact .precise h
  · refine (randIntr_quiet (X := fun _ => False) (by decide) (by decide) (by decide) s).mono ?_
      fun _ _ he => he.2
    intro cnt t hq'
    obtain ⟨hq, hlow, hhigh⟩ := hq'
    rw [if_neg h]
    exact ⟨hq, .drawn (by simpa using h) hlow hhigh⟩

theorem Start.congr {b b' : Book} {cnt : Nat} {anonSlice : Int} (h : Start b cnt anonSlice)
    (hp : b.allocPrecision = b'.allocPrecision) (hm : b.maxAllocPerPhase = b'.maxAllocPerPhase) :
    Start b' cnt anonSlice := by
  cases h with
  | precise h => exact hm ▸ .precise (hp ▸ h)
  | drawn h low high => exact .drawn (hp ▸ h) low high

theorem transRandAllocEnter_ends (s : St γ) :
    Ends (transRandAllocEnter w) s
      (fun l t => Still s t ∧ s.curr < maxAlloc ∧ Start s.toBook l.cnt l.anonSlice ∧
        t.toBook = opened s.toBook l.cnt)
      (fun h t => Still s t ∧ t.toBook = s.toBook ∧ (Forced w h ∨
        (h = .exit "reached maximum phase transitions\n" ∧ (maxAlloc : Int) ≤ s.curr))) := by
  unfold transRandAllocEnter
  rw [ends_bind]
  refine (randLim_quiet (by decide) (by decide) s).mono ?_ ?_
  · intro i t hend
    obtain ⟨hq, _⟩ := hend
    have hb : t.toBook = s.toBook := hq.book
    have hc : t.curr = s.curr := hq.curr
    rw [ends_bind]
    refine (goToNxtPhase_ends t).mono ?_ ?_
    · intro _ u hend
      obtain ⟨hroom, hu⟩ := hend
      subst hu
      simp only [ends_bind, ends_get]
      refine (randomizeAllocCount_ends (w := w) { t with curr := t.curr + 1 }).mono ?_
        fun _ _ h => h.elim
      intro cnt v hend
      obtain ⟨hq', hstart⟩ := hend
      simp only [ends_modify, ends_pure]
      have hv : v.toBook = { s.toBook with curr := s.curr + 1 } := by rw [hq'.book, ← hb]
      have hopen : Still t { t with curr := t.curr + 1 } := ⟨rfl, fun _ h => .inl h, rfl⟩
      have hs := (hq.still.trans hopen).trans hq'.still
      refine ⟨⟨hs.memory, hs.calls, hs.length⟩, hc ▸ hroom, ?_, ?_⟩
      · have hp : t.allocPrecision = s.allocPrecision := congrArg (fun b : Book => b.allocPrecision) hb
        have hm : t.maxAllocPerPhase = s.maxAllocPerPhase :=
          congrArg (fun b : Book => b.maxAllocPerPhase) hb
        exact hstart.congr hp hm
      · change { v.toBook with inTransition := true, budgets := cnt :: v.budgets } = _
        rw [hv]
        rfl
    · intro h u hend
      obtain ⟨⟨hh, hfull⟩, hu⟩ := hend
      subst hu
      exact ⟨hq.still, hb, .inr ⟨hh, hc ▸ hfull⟩⟩
  · intro h t hend
    obtain ⟨hq, hh⟩ := hend
    exact ⟨hq.still, hq.book, .inl hh⟩

theorem job_ends {s : St γ} (hgo : s.allocNomore = false) :
    Ends (job w s.wcetMs s.timeG) s
      (fun pc u => Still s u ∧
        ((pc = .main ∧ Late w s.timeG s.wcetMs ∧ u.toBook = passedOver s.toBook) ∨
        ∃ l, pc = .trans s.wcetMs s.timeG l ∧ s.curr < maxAlloc ∧
          Start (called s.toBook) l.cnt l.anonSlice ∧ u.toBook = opened (called s.toBook) l.cnt))
      (fun h u => Still s u ∧ u.toBook = called s.toBook ∧ (Forced w h ∨
        (h = .exit "reached maximum phase transitions\n" ∧ (maxAlloc : Int) ≤ s.curr))) := by
  have hcall : ∀ n, Still s { s with toBook := called s.toBook, wallReads := n } :=
    fun _ => ⟨rfl, fun _ h => .inl h, rfl⟩
  unfold job
  rw [ends_bind, ends_modify, ends_bind]
  refine (wctime_ends _ _).mono ?_ fun _ _ h => h.elim
  rintro now _ ⟨hnow, rfl⟩
  rw [ends_bind]
  refine (wctime_ends _ _).mono ?_ fun _ _ h => h.elim
  rintro now' _ ⟨hnow', rfl⟩
  rw [ends_ite]
  refine ⟨fun hlate => ?_, fun _ => ?_⟩
  · simp only [ends_bind, ends_modify, ends_pure]
    refine (wctime_ends _ _).mono ?_ fun _ _ h => h.elim
    rintro _ _ ⟨_, rfl⟩
    refine ⟨⟨rfl, fun _ h => .inl h, rfl⟩, .inl ⟨trivial, ⟨s.wallReads, ?_⟩, rfl⟩⟩
    rw [hnow, hnow'] at hlate
    exact hlate
  · simp only [ends_bind, ends_get]
    rw [if_neg (by simp [hgo]), ends_bind]
    refine (transRandAllocEnter_ends _).mono ?_ ?_
    · intro l v hq
      obtain ⟨hv, hroom, hstart, hopen⟩ := hq
      exact ⟨(hcall _).trans hv, .inr ⟨l, rfl, hroom, hstart, hopen⟩⟩
    · intro h v hq
      obtain ⟨hv, hvb, hh⟩ := hq
      exact ⟨(hcall _).trans hv, hvb, hh⟩

theorem curJobSucc_ends (s : St γ) :
    Ends curJobSucc s
      (fun _ t => s.curJob + 1 < 2 ^ 31 ∧ t = { s with curJob := s.curJob + 1 })
      (fun h t => h = .undefined .overflow ∧ 2 ^ 31 ≤ s.curJob + 1 ∧ t = s) := by
  unfold curJobSucc defined
  simp only [ends_bind, ends_get, ends_ite, ends_pure, ends_set, ends_throw]
  exact ⟨fun h => ⟨h, trivial⟩, fun h => ⟨trivial, Nat.le_of_not_lt h, trivial⟩⟩

theorem Lined.curJob {b b' : Book} (h : Lined b b') : b'.curJob = b.curJob := by
  cases h <;> rfl

theorem limits_ends {s : St γ} {b b' : Book} {rows : List Row} (hl : Lined b b')
    (hs : s.toBook = { b' with rows := rows }) :
    Ends (limits w) s
      (fun pc t => Still s t ∧ Move w ⟨b, .main⟩ ⟨t.toBook, pc⟩)
      (fun h t => Still s t ∧ Move w ⟨b, .main⟩ ⟨t.toBook, .stopped h⟩) := by
  have hloc : Located b (limited b' rows) := .intro rows hl
  have hlim : limited s.toBook s.rows = limited b' rows := by
    rw [hs]
    rfl
  have htest : Still s { s with toBook := limited s.toBook s.rows } := ⟨rfl, fun _ h => .inl h, rfl⟩
  unfold limits
  rw [ends_bind, ends_modify, ends_bind]
  refine (curJobSucc_ends _).mono ?_ ?_
  case refine_2 =>
    rintro _ _ ⟨rfl, hhigh, rfl⟩
    refine ⟨⟨rfl, fun _ h => .inl h, rfl⟩, ?_⟩
    have hkeep : s.curJob = b.curJob := by
      rw [hs]
      exact hl.curJob
    change 2 ^ 31 ≤ (limited s.toBook s.rows).curJob at hhigh
    change Move w ⟨b, .main⟩ ⟨{ limited s.toBook s.rows with curJob := s.curJob }, _⟩
    rw [hlim] at hhigh ⊢
    exact hkeep ▸ .overrun hloc hhigh
  rintro _ _ ⟨_, rfl⟩
  rw [ends_bind, ends_get]
  change Ends (if Over (limited s.toBook s.rows) then _ else _)
    { s with toBook := limited s.toBook s.rows } _ _
  rw [ends_ite]
  refine ⟨fun hover => ⟨htest, ?_⟩, fun hgo => ?_⟩
  · change Move w ⟨b, .main⟩ ⟨limited s.toBook s.rows, _⟩
    rw [hlim] at hover ⊢
    exact .finish hloc hover
  · have hno : (limited s.toBook s.rows).allocNomore = false := by
      have := not_or.mp hgo
      simpa using this.2
    refine (job_ends (s := { s with toBook := limited s.toBook s.rows }) hno).mono ?_ ?_
    · rintro pc t ⟨ht, ⟨rfl, hlate, hskip⟩ | ⟨l, rfl, hroom, hstart, hopen⟩⟩
      · refine ⟨htest.trans ht, ?_⟩
        rw [hskip]
        change Late w (limited s.toBook s.rows).timeG (limited s.toBook s.rows).wcetMs at hlate
        rw [hlim] at hgo hlate ⊢
        exact .skip hloc hgo hlate
      · refine ⟨htest.trans ht, ?_⟩
        change Move w _ ⟨_, .trans (limited s.toBook s.rows).wcetMs (limited s.toBook s.rows).timeG l⟩
        rw [hopen]
        rw [hlim] at hgo hroom hstart ⊢
        exact .enter hloc hgo hroom hstart
    · intro h t hq
      obtain ⟨ht, hcall, hh⟩ := hq
      refine ⟨htest.trans ht, ?_⟩
      rw [hcall]
      rw [hlim] at hgo hh ⊢
      exact .enterHalt hloc hgo hh

theorem mainPass_turned (s : St γ) :
    Ends (mainPass w) s (fun pc t => Turned w s .main t pc)
      (fun h t => Turned w s .main t (.stopped h)) := by
  unfold mainPass
  apply (nextLocality_ends s).bind
  rintro go t ⟨ht, ⟨rfl, hl⟩ | ⟨rfl, hv, hg, rfl⟩⟩
  · rw [if_pos rfl, ends_bind]
    refine (report_ends t).mono ?_ fun _ _ h => h.elim
    intro _ u hq
    obtain ⟨hu, rows, hrows⟩ := hq
    refine (limits_ends hl hrows).mono ?_ ?_
    · intro pc v hq
      obtain ⟨hv, hm⟩ := hq
      exact .still hm ((ht.trans hu).trans hv)
    · intro h v hq
      obtain ⟨hv, hm⟩ := hq
      exact .still hm ((ht.trans hu).trans hv)
  · rw [if_neg (by decide)]
    exact .still (.idle (.ended hv hg)) (Still.refl t)

theorem RequestFor.length {ps : Nat} {b : Book} {anonSlice : Int} {cnt cnt' : Nat} {typ : MemType}
    {l : Ledger} (h : Request ps b anonSlice cnt typ cnt' l) :
    l.fileLst.length = b.fileLst.length := by
  cases h with
  | refused _ _ _ pool => exact pool.length_eq.symm
  | @served lst r node _ granted _ _ _ =>
    have hl := granted.pool.length_eq.symm
    cases node with
    | none => exact hl
    | some node => exact (List.length_modify _ _ _).trans hl

theorem AbortedFor.length {b : Book} {anonSlice : Int} {h : Halt} {l : Ledger}
    (ha : Aborted w b anonSlice h l) :
    l.fileLst.length = b.fileLst.length := by
  cases ha with
  | early _ pool => exact pool.length_eq.symm
  | full granted _ => exact granted.pool.length_eq.symm

theorem Moved.still {s t : St γ} {l : Ledger} (h : Moved s t l)
    (hl : l.fileLst.length = s.fileLst.length) : Still s t :=
  ⟨h.memory, h.calls, by rw [← hl, ← h.ledger]⟩

/-- Touches after a turn that wrote nothing. -/
theorem Turned.touched {s t u : St γ} {pc pc' : Pc} (hm : Move w ⟨s.toBook, pc⟩ ⟨u.toBook, pc'⟩)
    (h : Still s t) (h' : Touched w t u) : Turned w s pc u pc' := by
  have hb : u.toBook = t.toBook := h'.kept.book
  have hfix : t.fixHead = s.fixHead := congrArg Memory.fixHead h.memory
  refine ⟨hm, fun hu => ?_, fun hs hf => ?_⟩
  · rw [hb] at hu
    exact h.calls.trans h.length (h'.calls hu)
  · rw [hb] at hs hf
    exact h.wrote.trans (h'.wrote hs (hfix ▸ hf)) h'.kept.curr h'.kept.current h.length

theorem transRandAllocPass_turned {s : St γ} (hr : Ready s.toBook) {l : TransLocals}
    (more : l.cnt ≠ 0) (execTime : ℚ) (t : Granularity) :
    Ends (transRandAllocPass w l) s
      (fun l' u => Turned w s (.trans execTime t l) u (.trans execTime t l'))
      (fun h u => Turned w s (.trans execTime t l) u (.stopped h)) := by
  unfold transRandAllocPass
  rw [ends_bind]
  refine (randomAllocatorOne_ends hr l.anonSlice l.cnt).mono ?_ ?_
  · intro r u hq
    obtain ⟨typ, cnt⟩ := r
    obtain ⟨led, hreq, hu⟩ := hq
    have hs := hu.still hreq.length
    dsimp only
    by_cases hmax : typ = .typeMax
    · rw [if_pos hmax, ends_pure]
      refine .still ?_ hs
      rw [hu.book]
      have hm : Move w ⟨s.toBook, .trans execTime t l⟩
          ⟨withLedger s.toBook led, .trans execTime t (nextLocals l typ cnt)⟩ := .request more hreq
      rwa [nextLocals, if_pos hmax] at hm
    · rw [if_neg hmax, ends_bind]
      refine (loopN_ends l.i u).mono ?_ ?_
      · intro _ v hv
        refine .touched ?_ hs hv
        rw [hv.kept.book, hu.book]
        have hm : Move w ⟨s.toBook, .trans execTime t l⟩
            ⟨withLedger s.toBook led, .trans execTime t (nextLocals l typ cnt)⟩ := .request more hreq
        rwa [nextLocals, if_neg hmax] at hm
      · intro h v hq
        obtain ⟨hv, hwhy⟩ := hq
        refine .touched ?_ hs hv
        rw [hv.kept.book, hu.book]
        exact .trouble more hreq hmax (hu.book ▸ hwhy)
  · intro h u hq
    obtain ⟨led, hab, hu⟩ := hq
    refine .still ?_ (hu.still hab.length)
    rw [hu.book]
    exact .aborted more hab

theorem jobHold_ends (execTime : ℚ) (t : Granularity) (s : St γ) :
    Ends (jobHold w execTime t) s
      (fun pc u => Still s u ∧ u.toBook = s.toBook ∧ InTracker s.toBook ∧
        ∃ n i, pc = .hold ⟨execTime, t, cpuTime w t n, 0, i, 0⟩)
      (fun h u => Still s u ∧ u.toBook = s.toBook ∧ ¬InTracker s.toBook ∧
        h = .undefined .trackIndex) := by
  unfold jobHold
  rw [ends_bind]
  refine (currTrack_ends s).mono ?_ ?_
  · intro _ u hq
    obtain ⟨hu, _⟩ := hq
    subst hu
    unfold loopForEnter
    simp only [ends_bind, ends_pure]
    refine (cputime_ends t u).mono ?_ fun _ _ h => h.elim
    rintro now _ ⟨rfl, rfl⟩
    have hs : Still u { u with cpuReads := u.cpuReads + 1 } := ⟨rfl, fun _ h => .inl h, rfl⟩
    refine (currTrack_ends _).mono ?_ ?_
    · rintro lst _ ⟨rfl, _, hin⟩
      exact ⟨hs, rfl, hin, u.cpuReads, lst.length, rfl⟩
    · rintro h _ ⟨rfl, hh, hout⟩
      exact ⟨hs, rfl, hout, hh⟩
  · intro h u hq
    obtain ⟨hu, hh, hout⟩ := hq
    subst hu
    exact ⟨Still.refl u, rfl, hout, hh⟩

theorem loopOnce_ends (last : ℚ) (s : St γ) :
    Ends (loopOnce last) s (fun _ t => ∃ num, t = { s with num := num }) (fun _ _ => False) := by
  unfold loopOnce
  rw [ends_ite]
  exact ⟨fun _ => ⟨s.num, rfl⟩, fun _ => ⟨_, rfl⟩⟩

theorem loopForTouch_ends (i : Nat) (s : St γ) :
    Ends (loopForTouch w i) s
      (fun _ t => Touched w s t) (fun h t => Touched w s t ∧ Trouble w s.toBook h) := by
  unfold loopForTouch
  rw [ends_ite]
  refine ⟨fun _ => ?_, fun _ => ?_⟩
  · rw [ends_bind]
    exact (touch_ends (i - 1) s).mono (fun _ _ h => h) fun _ _ h => h
  · rw [ends_bind]
    refine (currTrack_ends s).mono ?_ ?_
    · intro _ t hq
      obtain ⟨ht, _⟩ := hq
      exact ht ▸ Touched.refl s
    · intro h t hq
      obtain ⟨ht, hh, hout⟩ := hq
      subst ht hh
      exact ⟨Touched.refl t, .track hout⟩

theorem loopForPass_turned (s : St γ) (l : HoldLocals) :
    Ends (loopForPass w l) s
      (fun l' t => Turned w s (.hold l) t (.hold l'))
      (fun h t => Turned w s (.hold l) t (.stopped h)) := by
  unfold loopForPass
  rw [ends_bind]
  refine (loopForTouch_ends l.i s).mono ?_ ?_
  · intro i t ht
    rw [ends_bind]
    refine (loopOnce_ends _ t).mono ?_ fun _ _ h => h.elim
    intro j u hq'
    obtain ⟨num, hu⟩ := hq'
    subst hu
    rw [ends_bind]
    refine (cputime_quiet (X := fun _ => False) l.t _).mono ?_ fun _ _ h => h.2.elim
    intro now v hq'
    obtain ⟨hq, _⟩ := hq'
    have hv : v.toBook = { s.toBook with num := num } := by
      rw [hq.book, ← ht.kept.book]
    have hnum : Still t { t with num := num } := ⟨rfl, fun _ h => .inl h, rfl⟩
    have hl : t.fileLst.length = s.fileLst.length :=
      congrArg (fun b : Book => b.fileLst.length) ht.kept.book
    have hstill := hnum.trans hq.still
    refine ⟨?_, fun hs => ?_, fun hs hf => ?_⟩
    · rw [hv]
      exact .idle (.hold num rfl)
    · rw [hv] at hs
      exact (ht.calls ⟨hs.page, hs.access, hs.size⟩).trans hl hstill.calls
    · rw [hv] at hs hf
      have hw := ht.wrote ⟨hs.page, hs.access, hs.size⟩ ⟨hf.apart, hf.inside⟩
      refine hw.trans hstill.wrote hq.curr ?_ hl
      exact (congrArg current hq.book).trans rfl
  · intro h t hq'
    obtain ⟨ht, hwhy⟩ := hq'
    refine .touched ?_ (Still.refl s) ht
    rw [ht.kept.book]
    exact .idle (.holdHalt hwhy)

/-- Every turn of the program is a move, and writes only where it should. -/
theorem turn_turned {s : St γ} {pc : Pc} (hok : Ok ⟨s.toBook, pc⟩) :
    Ends (turn w pc) s (fun pc' t => Turned w s pc t pc')
      (fun h t => Turned w s pc t (.stopped h)) := by
  cases pc with
  | boot opts => exact mainEnter_turned opts hok
  | main => exact mainPass_turned s
  | trans execTime t l =>
    unfold turn
    rw [ends_ite]
    refine ⟨fun more => ?_, fun done => ?_⟩
    · rw [ends_bind]
      exact transRandAllocPass_turned hok.ready more execTime t
    · have hdone : l.cnt = 0 := not_not.mp done
      have hleft : Still s { s with toBook := left s.toBook } := ⟨rfl, fun _ h => .inl h, rfl⟩
      rw [ends_bind]
      change Ends (jobHold w execTime t) { s with toBook := left s.toBook } _ _
      refine (jobHold_ends execTime t _).mono ?_ ?_
      · rintro pc u ⟨hu, hb, hin, n, i, rfl⟩
        refine .still ?_ (hleft.trans hu)
        rw [hb]
        exact .idle (.leave hdone hin)
      · rintro h u ⟨hu, hb, hout, rfl⟩
        refine .still ?_ (hleft.trans hu)
        rw [hb]
        exact .idle (.leaveHalt hdone hout)
  | hold l =>
    unfold turn
    rw [ends_ite]
    refine ⟨fun _ => ?_, fun _ => ?_⟩
    · rw [ends_bind]
      exact loopForPass_turned s l
    · exact .still (.idle .held) ⟨rfl, fun _ h => .inl h, rfl⟩
  | stopped h => exact .still (.idle .stopped) (Still.refl s)

/-- What holds where a turn ends holds after the step. -/
theorem step_of_ends {m : Machine γ} {P : Machine γ → Prop}
    (h : Ends (turn w m.pc) m.st (fun pc t => P ⟨t, pc⟩) (fun e t => P ⟨t, .stopped e⟩)) :
    P (step w m) := by
  unfold step
  unfold Ends at h
  cases hm : turn w m.pc m.st with
  | ok pc st =>
    rw [hm] at h
    exact h
  | error e st =>
    rw [hm] at h
    exact h

def view (m : Machine γ) : View := ⟨m.st.toBook, m.pc⟩

theorem step_turned {m : Machine γ} (hok : Ok (view m)) :
    Turned w m.st m.pc (step w m).st (step w m).pc :=
  step_of_ends (P := fun t => Turned w m.st m.pc t.st t.pc) (turn_turned hok)

theorem Ready.located {b b' : Book} (h : Ready b) (hl : Located b b') : Ready b' := by
  obtain ⟨_, _ | _⟩ := hl
  · exact ⟨h.speed, h.length⟩
  · exact ⟨h.speed, h.length⟩

theorem Ready.ledger {b : Book} {l : Ledger} (h : Ready b)
    (hl : l.fileLst.length = b.fileLst.length) : Ready (withLedger b l) :=
  ⟨Nat.lt_of_lt_of_eq h.speed hl.symm, hl.trans_lt h.length⟩

theorem Ready.move {v v' : View} (h : Ready v.book) (hm : Move w v v') : Ready v'.book := by
  cases hm with
  | boot configured _ _ => exact configured.ready h
  | idle hi => cases hi <;> exact ⟨h.speed, h.length⟩
  | finish located _ => exact h.located located
  | overrun located _ => exact ⟨(h.located located).speed, (h.located located).length⟩
  | skip located _ => exact ⟨(h.located located).speed, (h.located located).length⟩
  | enter located _ _ _ => exact ⟨(h.located located).speed, (h.located located).length⟩
  | enterHalt located _ _ => exact ⟨(h.located located).speed, (h.located located).length⟩
  | request _ request => exact h.ledger request.length
  | trouble _ request _ _ => exact h.ledger request.length
  | aborted _ aborted => exact h.ledger aborted.length

/-- The program never returns to its options. -/
theorem Move.booted {v v' : View} (hm : Move w v v') (opts : List Opt) : v'.pc ≠ .boot opts := by
  cases hm with
  | boot _ _ next => rcases next with rfl | ⟨_, rfl, _⟩ <;> simp
  | idle hi => cases hi <;> simp
  | _ => simp

theorem Ok.move {v v' : View} (h : Ok v) (hm : Move w v v') : Ok v' :=
  ⟨h.ready.move hm, fun opts ho => absurd ho (hm.booted opts)⟩

/-- The program refines the moves. -/
theorem step_refines : System.Refines (step w) view (Move w) Ok :=
  ⟨fun _ hok => (step_turned hok).move, fun _ _ => Ok.move⟩

end Gobbler.Proofs
