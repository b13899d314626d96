import Gobbler.Proofs.Oblivious
import Gobbler.Proofs.Tally

namespace Gobbler.Proofs
open Effect

variable {γ : Type} {w : World γ} {table : FileTable} {opts : List Opt} {mem : Nat → UInt8} {gen : γ}

/-- Nothing was mapped, and the tracker was left alone. -/
structure Aside (s t : St γ) : Prop where
  mmaps : t.mmaps = s.mmaps
  track : t.allocTrack = s.allocTrack
  curr : t.curr = s.curr

instance : IsPreorder (St γ) Aside where
  refl _ := ⟨rfl, rfl, rfl⟩
  trans _ _ _ h h' := ⟨h'.mmaps.trans h.mmaps, h'.track.trans h.track, h'.curr.trans h.curr⟩

theorem Kept.aside {s t : St γ} (h : Kept s t) : Aside s t :=
  ⟨h.mmaps, congrArg (fun b : Book => b.allocTrack) h.book, congrArg (fun b : Book => b.curr) h.book⟩

theorem Moved.aside {s t : St γ} {l : Ledger} (h : Moved s t l) (hm : t.mmaps = s.mmaps)
    (htrack : l.allocTrack = s.allocTrack) (hcurr : l.curr = s.curr) : Aside s t :=
  ⟨hm, (congrArg Ledger.allocTrack h.ledger).trans htrack, (congrArg Ledger.curr h.ledger).trans hcurr⟩

theorem Quiet.aside {s t : St γ} (h : Quiet s t) (hm : t.mmaps = s.mmaps) : Aside s t :=
  h.moved.aside hm rfl rfl

theorem randomizeAllocType_aside (anonSlice : Int) (s : St γ) :
    Ends (randomizeAllocType w anonSlice) s (fun _ t => Aside s t) fun _ t => Aside s t := by
  have hmmaps := (randomizeAllocType_aloof (w := w) anonSlice).unmapping.mmaps s
  refine ((randomizeAllocType_ends anonSlice s).and hmmaps).mono ?_ ?_
  · rintro _ t ⟨⟨_, hmoved, _⟩, hm⟩
    exact hmoved.aside hm rfl rfl
  · rintro _ t ⟨⟨_, hq⟩, hm⟩
    exact hq.aside hm

theorem randomizeAllocLen_aside {s : St γ} (hr : Ready s.toBook) :
    Ends (randomizeAllocLen w) s (fun _ t => Aside s t) fun _ _ => False := by
  have hmmaps := (randomizeAllocLen_aloof (w := w)).unmapping.mmaps s
  refine ((randomizeAllocLen_ends hr).and hmmaps).mono ?_ fun _ _ hq => hq.1
  rintro _ t ⟨⟨hq, _⟩, hm⟩
  exact hq.aside hm

theorem fileSize_aside (i : Nat) (s : St γ) :
    Ends (fileSize i) s (fun _ t => Aside s t) fun _ t => Aside s t := by
  unfold fileSize note
  simp only [ends_bind, ends_modify, ends_get]
  split <;> exact ⟨rfl, rfl, rfl⟩

/-- The machine made mapping `k` as the record says. -/
structure Answers (w : World γ) (k : Nat) (r : AllocRec) : Prop where
  mmap : w.mmap k = some r.addr
  madvise : w.madvise k = true
  opens : r.type = .file → w.opens k = true

/-- A mapping of this type was made at `addr`, and is not in the tracker yet. -/
structure MappedAt (w : World γ) (type : MemType) (addr : Nat) (s t : St γ) : Prop where
  answer : ∀ len, Answers w s.mmaps ⟨addr, len, type⟩
  mmaps : t.mmaps = s.mmaps + 1
  track : t.allocTrack = s.allocTrack
  curr : t.curr = s.curr

/-- A mapping was asked for, and nothing came of it. -/
structure Wasted (s t : St γ) : Prop where
  mmaps : t.mmaps = s.mmaps + 1
  track : t.allocTrack = s.allocTrack
  curr : t.curr = s.curr

theorem mmapper_maps (type : MemType) (s : St γ) :
    Ends (mmapper w type) s (fun addr t => MappedAt w type addr s t) fun _ t => Wasted s t := by
  have hw : Wasted s { s with mmaps := s.mmaps + 1 } := ⟨rfl, rfl, rfl⟩
  unfold mmapper
  simp only [ends_bind, ends_get, ends_set]
  by_cases ho : type = .file ∧ w.opens s.mmaps = false
  · simp only [if_pos ho, ends_bind, ends_throw]
    exact hw
  · simp only [if_neg ho]
    cases hm : w.mmap s.mmaps with
    | none => exact hw
    | some addr =>
      rw [ends_ite]
      refine ⟨fun ha => ?_, fun _ => hw⟩
      exact ⟨fun _ => ⟨hm, ha, by simpa using ho⟩, rfl, rfl, rfl⟩

theorem Aside.mapped {s t u : St γ} {type : MemType} {addr : Nat} (h : Aside s t)
    (h' : MappedAt w type addr t u) : MappedAt w type addr s u :=
  ⟨fun len => h.mmaps ▸ h'.answer len, h.mmaps ▸ h'.mmaps, h'.track.trans h.track,
    h'.curr.trans h.curr⟩

theorem Aside.wasted {s t u : St γ} (h : Aside s t) (h' : Wasted t u) : Wasted s u :=
  ⟨h.mmaps ▸ h'.mmaps, h'.track.trans h.track, h'.curr.trans h.curr⟩

theorem MappedAt.aside {s t u : St γ} {type : MemType} {addr : Nat} (h : MappedAt w type addr s t)
    (h' : Aside t u) : MappedAt w type addr s u :=
  ⟨h.answer, h'.mmaps.trans h.mmaps, h'.track.trans h.track, h'.curr.trans h.curr⟩

theorem MappedAt.wasted {s t : St γ} {type : MemType} {addr : Nat} (h : MappedAt w type addr s t) :
    Wasted s t :=
  ⟨h.mmaps, h.track, h.curr⟩

/-- `alloc` maps nothing when it returns no address. -/
theorem alloc_maps (type : MemType) (len : Nat) (s : St γ) :
    Ends (alloc w type len) s
      (fun r t => (r.1 = 0 ∧ Aside s t) ∨ (r.1 ≠ 0 ∧ MappedAt w type r.1 s t))
      fun _ t => Aside s t ∨ Wasted s t := by
  have hrest : ∀ (node : Option (Nat × Nat)) (len : Nat) (t : St γ), Aside s t → Ends (do
      if type ≠ .anon ∧ node = none then return (0, len, none)
      else
        let s ← get
        let len := clip s.maxAllocPerPhaseByte len
        let map ← mmapper w type
        return (map, len, node) : M γ (Nat × Nat × Option (Nat × Nat))) t
      (fun r u => (r.1 = 0 ∧ Aside s u) ∨ (r.1 ≠ 0 ∧ MappedAt w type r.1 s u))
      fun _ u => Aside s u ∨ Wasted s u := by
    intro node len t ht
    rw [ends_ite]
    refine ⟨fun _ => .inl ⟨rfl, ht⟩, fun _ => ?_⟩
    rw [ends_bind, ends_get, ends_bind]
    refine (mmapper_maps type t).mono ?_ fun _ _ hw => .inr (ht.wasted hw)
    intro addr u hu
    exact .inr ⟨w.mmap_ne_zero _ _ (hu.answer 0).mmap, ht.mapped hu⟩
  unfold alloc
  by_cases ht : type = .anon
  · rw [if_pos ht]
    by_cases hl : len = 0
    · rw [if_pos hl, ends_bind]
      exact (fileSize_aside 0 s).mono (fun _ t ht => hrest _ _ t ht) fun _ _ ht => .inl ht
    · rw [if_neg hl]
      exact hrest _ _ s (refl_of Aside s)
  · rw [if_neg ht, ends_bind]
    exact hrest _ _ _ ⟨rfl, rfl, rfl⟩

theorem addNewAlloc_maps (address len : Nat) (type : MemType) (s : St γ) :
    Ends (addNewAlloc address len type) s
      (fun suc t => t.mmaps = s.mmaps ∧ t.curr = s.curr ∧ ((suc = -1 ∧ t.allocTrack = s.allocTrack) ∨
        (suc = 1 ∧ 0 ≤ s.curr ∧ t.allocTrack = Function.update s.allocTrack s.curr.toNat
          (s.allocTrack s.curr.toNat ++ [⟨address, len, type⟩]))))
      fun _ t => Aside s t := by
  have hs : Aside s s := refl_of Aside s
  unfold addNewAlloc currTrack defined
  by_cases hc : 0 ≤ s.curr ∧ s.curr < maxAlloc
  · simp only [ends_bind, ends_get, if_pos hc, ends_pure]
    rw [ends_ite]
    exact ⟨fun _ => ⟨rfl, rfl, .inl ⟨rfl, rfl⟩⟩, fun _ => ⟨rfl, rfl, .inr ⟨rfl, hc.1, rfl⟩⟩⟩
  · simp only [ends_bind, ends_get, if_neg hc, ends_throw]
    exact hs

/-- A full list ends the program here. -/
theorem settle_aside (node : Option (Nat × Nat)) (suc : Int) (s : St γ) :
    Ends (settle node suc) s (fun _ t => Aside s t ∧ 0 ≤ suc) fun _ t => Aside s t ∧ suc < 0 := by
  have hs : Aside s s := refl_of Aside s
  unfold settle
  cases node with
  | none =>
    rw [ends_ite]
    exact ⟨fun h => ⟨hs, h⟩, fun h => ⟨hs, not_lt.mp h⟩⟩
  | some node =>
    dsimp only
    rw [ends_ite]
    refine ⟨fun h => ⟨⟨rfl, rfl, rfl⟩, le_of_lt h⟩, fun _ => ?_⟩
    rw [ends_ite]
    exact ⟨fun h => ⟨hs, h⟩, fun h => ⟨hs, not_lt.mp h⟩⟩

/-- What a request does to the tracker when it returns. -/
inductive Charted (w : World γ) (s t : St γ) : Prop
  | none (h : Aside s t)
  | one (r : AllocRec) (answer : Answers w s.mmaps r) (mmaps : t.mmaps = s.mmaps + 1)
    (curr : t.curr = s.curr) (low : 0 ≤ s.curr)
    (track : t.allocTrack = Function.update s.allocTrack s.curr.toNat
      (s.allocTrack s.curr.toNat ++ [r]))

theorem Charted.aside {s t u : St γ} (h : Charted w s t) (h' : Aside t u) : Charted w s u := by
  cases h with
  | none h => exact .none (trans_of Aside h h')
  | one r answer mmaps curr low track =>
    exact .one r answer (h'.mmaps.trans mmaps) (h'.curr.trans curr) low (h'.track.trans track)

/-- The part of `random_allocator_one` after a mapping was made. -/
theorem track_maps {s t : St γ} {type : MemType} {addr : Nat} (len pageCnt cnt : Nat)
    (node : Option (Nat × Nat)) (h : MappedAt w type addr s t) :
    Ends (do
        let allocSuc ← addNewAlloc addr len type
        countPages type pageCnt
        settle node allocSuc
        let s ← get
        if s.allocPrecision then return (type, if cnt < pageCnt then 0 else cnt - pageCnt)
        else return (type, wrapSub cnt 1) : M γ (MemType × Nat)) t
      (fun _ u => Charted w s u) fun _ u => Wasted s u := by
  rw [ends_bind]
  refine (addNewAlloc_maps addr len type t).mono ?_ fun _ _ hq => (h.aside hq).wasted
  rintro suc u ⟨hmmaps, hcurr, hsuc⟩
  rw [ends_bind]
  change Ends (settle node suc >>= _) _ _ _
  rw [ends_bind]
  have hmmaps' : u.mmaps = s.mmaps + 1 := hmmaps.trans h.mmaps
  have hcurr' : u.curr = s.curr := hcurr.trans h.curr
  refine (settle_aside node suc _).mono ?_ ?_
  · rintro _ v ⟨⟨hm, ht, hc⟩, hpos⟩
    have hv : Charted w s v := by
      rcases hsuc with ⟨rfl, _⟩ | ⟨_, hlow, htrack⟩
      · exact absurd hpos (by decide)
      · rw [h.curr, h.track] at htrack
        exact .one ⟨addr, len, type⟩ (h.answer len) (hm.trans hmmaps') (hc.trans hcurr')
          (h.curr ▸ hlow) (ht.trans htrack)
    rw [ends_bind, ends_get, ends_ite]
    exact ⟨fun _ => hv, fun _ => hv⟩
  · rintro _ v ⟨⟨hm, ht, hc⟩, hneg⟩
    rcases hsuc with ⟨_, htrack⟩ | ⟨rfl, _⟩
    · exact ⟨hm.trans hmmaps', ht.trans (htrack.trans h.track), hc.trans hcurr'⟩
    · exact absurd hneg (by decide)

theorem randomAllocatorOne_maps {s : St γ} (hr : Ready s.toBook) (anonSlice : Int) (cnt : Nat) :
    Ends (randomAllocatorOne w anonSlice cnt) s (fun _ t => Charted w s t)
      fun _ t => Aside s t ∨ Wasted s t := by
  unfold randomAllocatorOne
  rw [ends_bind]
  refine ((randomizeAllocType_aside anonSlice s).and (randomizeAllocType_ends anonSlice s)).mono ?_
    fun _ _ hq => .inl hq.1
  rintro type t ⟨ht, _, hmoved, _⟩
  have hready : Ready t.toBook := hmoved.book ▸ hr.ledger rfl
  rw [ends_bind]
  refine (randomizeAllocLen_aside hready).mono ?_ fun _ _ hq => hq.elim
  intro len u hu
  have hsu := trans_of Aside ht hu
  rw [ends_bind]
  refine (alloc_maps type len u).mono ?_ ?_
  · rintro ⟨addr, len, node⟩ v (⟨rfl, hv⟩ | ⟨hne, hv⟩)
    · obtain ⟨hmmaps, htrack, hcurr⟩ := trans_of Aside hsu hv
      exact .none ⟨hmmaps, htrack, hcurr⟩
    · dsimp only
      rw [if_neg hne]
      exact (track_maps _ _ _ _ (hsu.mapped hv)).mono (fun _ _ hq => hq) fun _ _ hq => .inr hq
  · rintro _ v (hv | hv)
    · exact .inl (trans_of Aside hsu hv)
    · exact .inr (hsu.wasted hv)

theorem transRandAllocPass_maps {s : St γ} (hr : Ready s.toBook) (l : TransLocals) :
    Ends (transRandAllocPass w l) s (fun _ t => Charted w s t)
      fun _ t => Charted w s t ∨ Wasted s t := by
  unfold transRandAllocPass
  rw [ends_bind]
  refine (randomAllocatorOne_maps hr l.anonSlice l.cnt).mono ?_ ?_
  · rintro ⟨typ, cnt⟩ t ht
    dsimp only
    rw [ends_ite]
    refine ⟨fun _ => ht, fun _ => ?_⟩
    rw [ends_bind]
    exact (loopN_ends l.i t).mono (fun _ _ hu => ht.aside hu.kept.aside)
      fun _ _ hu => .inl (ht.aside hu.1.kept.aside)
  · rintro _ t (ht | ht)
    · exact .inl (.none ht)
    · exact .inr ht

theorem jobHold_aside (execTime : ℚ) (t : Granularity) (s : St γ) :
    Ends (jobHold w execTime t) s (fun _ u => Aside s u) fun _ u => Aside s u := by
  have hmmaps := (jobHold_aloof (w := w) execTime t).unmapping.mmaps s
  have hkept : ∀ {u : St γ}, u.toBook = s.toBook → u.mmaps = s.mmaps → Aside s u :=
    fun hb hm => ⟨hm, congrArg (fun b : Book => b.allocTrack) hb, congrArg (fun b : Book => b.curr) hb⟩
  exact ((jobHold_ends execTime t s).and hmmaps).mono (fun _ _ hq => hkept hq.1.2.1 hq.2)
    fun _ _ hq => hkept hq.1.2.1 hq.2

theorem loopForPass_mmaps (l : HoldLocals) (s : St γ) :
    Ends (loopForPass w l) s (fun _ t => t.mmaps = s.mmaps) fun _ t => t.mmaps = s.mmaps := by
  unfold loopForPass
  rw [ends_bind]
  refine (loopForTouch_ends l.i s).mono ?_ fun _ _ ht => ht.1.kept.mmaps
  intro i t ht
  have hrest : Aloof (do
      let j ← loopOnce (l.execTime - l.run)
      let now ← cputime w l.t
      let lastLoop := now - l.now
      return { l with i, tmp := l.tmp + j, now, run := l.run + lastLoop } : M γ HoldLocals) :=
    ignores_bind (loopOnce_aloof _) fun _ => ignores_bind (cputime_aloof _) fun _ => ignores_pure _
  exact (hrest.unmapping.mmaps t).mono (fun _ _ hu => hu.trans ht.kept.mmaps)
    fun _ _ hu => hu.trans ht.kept.mmaps

/-- Only a request maps anything. -/
theorem turn_mmaps (pc : Pc) (h : inTransition pc = false) (s : St γ) :
    Ends (turn w pc) s (fun _ t => t.mmaps = s.mmaps) fun _ t => t.mmaps = s.mmaps := by
  cases pc with
  | boot opts => exact (mainEnter_unmapping opts).mmaps s
  | main => exact mainPass_aloof.unmapping.mmaps s
  | trans e t l => exact absurd h Bool.noConfusion
  | hold l =>
    unfold turn
    rw [ends_ite]
    refine ⟨fun _ => ?_, fun _ => rfl⟩
    rw [ends_bind]
    exact (loopForPass_mmaps l s).mono (fun _ _ hq => hq) fun _ _ hq => hq
  | stopped h => exact rfl

theorem turn_trans_maps {s : St γ} (hr : Ready s.toBook) (e : ℚ) (t : Granularity) (l : TransLocals) :
    Ends (turn w (.trans e t l)) s (fun _ u => Charted w s u) fun _ u => Charted w s u ∨ Wasted s u := by
  unfold turn
  rw [ends_ite]
  refine ⟨fun _ => ?_, fun _ => ?_⟩
  · rw [ends_bind]
    exact (transRandAllocPass_maps hr l).mono (fun _ _ h => h) fun _ _ h => h
  · have hleft : Aside s { s with inTransition := false } := ⟨rfl, rfl, rfl⟩
    rw [ends_bind]
    exact (jobHold_aside e t { s with inTransition := false }).mono
      (fun _ _ hu => .none (trans_of Aside hleft hu))
      fun _ _ hu => .inl (.none (trans_of Aside hleft hu))

/-- No record is made outside a transition. -/
theorem Move.records_of_other {v v' : View} (h : Move w v v') (ht : Tracked v.book.toLedger)
    (hpc : inTransition v.pc = false) : allRecords v'.book.toLedger = allRecords v.book.toLedger := by
  cases h with
  | boot _ ledger _ => rw [ledger]
  | idle hi => cases hi <;> rfl
  | finish located _ | overrun located _ | skip located _ | enterHalt located _ _ =>
    exact congrArg allRecords located.ledger
  | @enter b b' cnt i anonSlice located _ _ _ =>
    change allRecords (phased b'.toLedger) = _
    rw [located.ledger]
    exact allRecords_phased ht
  | request | trouble | aborted => cases hpc

/-- No transition ends in `main`. -/
theorem Move.not_returned {b b' : Book} {e : ℚ} {t : Granularity} {l : TransLocals} {h : Halt}
    (hm : Move w ⟨b, .trans e t l⟩ ⟨b', .stopped h⟩) : h ≠ .returned := by
  cases hm with
  | idle hi =>
    cases hi with
    | leaveHalt => simp
  | trouble _ _ _ why => exact why.not_returned
  | aborted _ aborted => exact aborted.not_returned

/-- The tracker lists the mappings in the order they were made, and at the end
of a program that failed at most one more was asked for. -/
structure Logbook (w : World γ) (m : Machine γ) : Prop where
  answers : ∀ k r, (allRecords m.st.toLedger)[k]? = some r → Answers w k r
  least : (allRecords m.st.toLedger).length ≤ m.st.mmaps
  most : m.st.mmaps ≤ (allRecords m.st.toLedger).length + 1
  sound : NotFailed m.pc → m.st.mmaps = (allRecords m.st.toLedger).length

theorem Logbook.same {m m' : Machine γ} (h : Logbook w m) (hrun : halted m.pc = none)
    (hmmaps : m'.st.mmaps = m.st.mmaps)
    (hrecords : allRecords m'.st.toLedger = allRecords m.st.toLedger) : Logbook w m' := by
  have heq := h.sound (.inl hrun)
  refine ⟨?_, ?_, ?_, fun _ => ?_⟩
  · exact hrecords ▸ h.answers
  all_goals rw [hrecords]; omega

theorem Logbook.wasted {m : Machine γ} {t : St γ} {x : Halt} (h : Logbook w m)
    (hrun : halted m.pc = none) (hx : x ≠ .returned) (hw : Wasted m.st t) :
    Logbook w ⟨t, .stopped x⟩ := by
  have heq := h.sound (.inl hrun)
  have hmmaps := hw.mmaps
  have hrecords : allRecords t.toLedger = allRecords m.st.toLedger := allRecords_congr hw.track hw.curr
  refine ⟨?_, ?_, ?_, fun hq => absurd hq.returned hx⟩
  · exact hrecords ▸ h.answers
  all_goals simp only [hrecords]; omega

theorem Logbook.charted {m : Machine γ} {t : St γ} {pc : Pc} (h : Logbook w m)
    (hrun : halted m.pc = none) (hc : Charted w m.st t) : Logbook w ⟨t, pc⟩ := by
  have heq := h.sound (.inl hrun)
  cases hc with
  | none ha => exact h.same hrun ha.mmaps (allRecords_congr ha.track ha.curr)
  | one r answer mmaps curr low track =>
    have hrecords : allRecords t.toLedger = allRecords m.st.toLedger ++ [r] :=
      (allRecords_congr (l := recorded m.st.toLedger r) track curr).trans (allRecords_recorded low r)
    have hlength : (allRecords t.toLedger).length = (allRecords m.st.toLedger).length + 1 := by
      rw [hrecords, List.length_append, List.length_singleton]
    refine ⟨?_, ?_, ?_, fun _ => ?_⟩
    · intro k r' hk
      simp only [hrecords] at hk
      rcases Nat.lt_trichotomy k (allRecords m.st.toLedger).length with hlt | rfl | hgt
      · rw [List.getElem?_append_left hlt] at hk
        exact h.answers k r' hk
      · rw [List.getElem?_concat_length, Option.some.injEq] at hk
        exact hk ▸ heq ▸ answer
      · rw [List.getElem?_eq_none (by simp; omega)] at hk
        cases hk
    all_goals simp only [hlength]; omega

theorem Logbook.step {m : Machine γ} (h : Logbook w m) (ht : Tracked m.st.toLedger)
    (hok : Ok (view m)) : Logbook w (step w m) := by
  cases hrun : halted m.pc with
  | some x => rwa [step_halted hrun]
  | none =>
    have hmove := (step_turned (w := w) hok).move
    cases htrans : inTransition m.pc with
    | true =>
      obtain ⟨e, t, l, hpc⟩ := inTransition_iff.mp htrans
      have hfailed := turn_turned (w := w) hok
      apply step_of_ends
      rw [hpc] at hfailed ⊢
      refine ((turn_trans_maps hok.ready e t l).and hfailed).mono (fun _ _ hq => h.charted hrun hq.1) ?_
      rintro x u ⟨hc | hw, hturned⟩
      · exact h.charted hrun hc
      · exact h.wasted hrun hturned.move.not_returned hw
    | false =>
      have hmmaps : (Gobbler.step w m).st.mmaps = m.st.mmaps :=
        step_of_ends (P := fun m' => m'.st.mmaps = m.st.mmaps)
          (turn_mmaps m.pc htrans m.st)
      exact h.same hrun hmmaps (hmove.records_of_other ht htrans)

theorem run_logbook (w : World γ) (table : FileTable) (opts : List Opt) (mem : Nat → UInt8)
    (gen : γ) (n : Nat) : Logbook w (run w table opts mem gen n) := by
  induction n with
  | zero => exact ⟨nofun, Nat.le_refl 0, Nat.zero_le 1, fun _ => rfl⟩
  | succ n ih =>
    rw [run_succ]
    exact ih.step (run_tracked w table opts mem gen n) (run_ok w table opts mem gen n)

/-- In every state of every run the records of all phases are, in order, the
mappings that the machine made: none is lost, none is listed twice. Each pass of
a transition made one request, which was served or refused. A program that failed
may have asked for one mapping more. -/
theorem mappings_tracked (w : World γ) (table : FileTable) (opts : List Opt) (mem : Nat → UInt8)
    (gen : γ) (n : Nat) :
    (∀ k r, (allRecords (run w table opts mem gen n).st.toLedger)[k]? = some r → Answers w k r) ∧
    (allRecords (run w table opts mem gen n).st.toLedger).length ≤ (run w table opts mem gen n).st.mmaps ∧
    (run w table opts mem gen n).st.mmaps ≤
      (allRecords (run w table opts mem gen n).st.toLedger).length + 1 ∧
    (halted (run w table opts mem gen n).pc = none ∨
        halted (run w table opts mem gen n).pc = some .returned →
      (run w table opts mem gen n).st.mmaps =
        (allRecords (run w table opts mem gen n).st.toLedger).length ∧
      (run w table opts mem gen n).st.typeCnt =
        (allRecords (run w table opts mem gen n).st.toLedger).length +
          (run w table opts mem gen n).st.refused ∧
      (run w table opts mem gen n).st.typeCnt = requestsMade (run w table opts mem gen) n) := by
  have hlog := run_logbook w table opts mem gen n
  refine ⟨hlog.answers, hlog.least, hlog.most, fun hq => ?_⟩
  exact ⟨hlog.sound hq, run_requests w table opts mem gen n hq, run_requestsMade w table opts mem gen n hq⟩

end Gobbler.Proofs
