import Gobbler.Proofs.Records
import Gobbler.Proofs.Script

namespace Gobbler.Proofs
open Effect

variable {γ : Type} {w : World γ} {table : FileTable} {opts : List Opt} {mem : Nat → UInt8}
  {gen : γ} {b : Book} {ps : Nat} {anonSlice : Int}

/-- On a machine with pages of `ps` bytes, whatever it answers, a pass of the
transition leaves a smaller count than it found. -/
def Progresses (ps : Nat) (b : Book) (cnt : Nat) (anonSlice : Int) : Prop :=
  ∀ (γ : Type) (w : World γ) (s t : St γ) (i : Nat) (l : TransLocals),
    w.pageSize = ps → s.toBook = b → transRandAllocPass w ⟨cnt, i, anonSlice⟩ s = .ok l t →
    l.cnt < cnt

/-- A request that is granted is served: the phase has a list with room, and the
request counter is not at its end. -/
structure Servable (b : Book) : Prop where
  track : InTracker b
  room : (current b).length < maxAllocPerSe
  counter : b.typeCnt + 1 < 2 ^ 31

/-- With a precise budget, whatever a request may be granted has a page of the machine. -/
def LongEnough (ps : Nat) (b : Book) (anonSlice : Int) : Prop :=
  b.allocPrecision = true → Servable b → ∀ lst type len node,
    Chosen b.typeCnt anonSlice type → Granted b lst type len node → ps ≤ len

theorem Move.of_count {b' : Book} {e e' : ℚ} {t t' : Granularity} {l l' : TransLocals}
    (h : Move w ⟨b, .trans e t l⟩ ⟨b', .trans e' t' l'⟩) (hps : 0 < w.pageSize)
    (hlong : LongEnough w.pageSize b l.anonSlice) :
    (e' = e ∧ t' = t) ∧ l'.cnt < l.cnt := by
  cases h with
  | idle hi => cases hi
  | request more request =>
    refine ⟨⟨rfl, rfl⟩, ?_⟩
    have hone := wrapSub_one_le more
    cases request with
    | refused =>
      simp only [nextLocals, if_true]
      omega
    | @served lst r node chosen granted _ track room counter =>
      have hne := chosen.ne_typeMax
      simp only [nextLocals, if_neg hne]
      cases hp : b.allocPrecision with
      | true =>
        have hle := hlong hp ⟨track, room, counter⟩ _ _ _ _ chosen granted
        have hpage : 1 ≤ r.len / w.pageSize := (Nat.one_le_div_iff hps).mpr hle
        rw [countdown_precise]
        omega
      | false =>
        rw [countdown, if_neg Bool.false_ne_true]
        omega

theorem progresses_iff (hps : 0 < ps) (hr : Ready b) (hsize : ∀ c ∈ b.fileLst, 0 < c.size)
    {cnt : Nat} (more : cnt ≠ 0) : Progresses ps b cnt anonSlice ↔ LongEnough ps b anonSlice := by
  refine ⟨fun h => ?_, fun h => ?_⟩
  · intro hprec hs lst type len node hch hg
    obtain ⟨w, hw, hends⟩ := hg.realised ps cnt hr hsize hs.track hs.counter hch
    cases hrun : randomAllocatorOne w anonSlice cnt (unstarted b) with
    | error e u =>
      obtain ⟨_, hfull, _⟩ := hends.error hrun
      exact absurd hfull (Nat.not_le_of_lt hs.room)
    | ok r u =>
      obtain ⟨_, rfl⟩ := hends.ok hrun
      have hpass : transRandAllocPass w ⟨cnt, 0, anonSlice⟩ (unstarted b) =
          .ok ⟨countdown b.allocPrecision cnt (len / ps), 0,
            if type = .anon then anonSlice - 1 else anonSlice⟩ u := by
        have hne := hch.ne_typeMax
        unfold transRandAllocPass
        rw [bind_ok hrun]
        dsimp only
        rw [if_neg hne]
        rfl
      have hless := h _ w _ _ _ _ hw rfl hpass
      rw [hprec, countdown_precise] at hless
      have hpage : 1 ≤ len / ps := by
        simp only at hless
        omega
      exact (Nat.one_le_div_iff hps).mp hpage
  · rintro γ w s t i l rfl rfl hpass
    have hturned := (transRandAllocPass_turned (w := w) hr more 0 .secs).ok hpass
    exact (hturned.move.of_count hps h).2

/-- What a pass of the transition that `m` is in needs to make progress. -/
def Guarded (ps : Nat) (m : Machine γ) : Prop :=
  ∀ e t l, m.pc = .trans e t l → LongEnough ps m.st.toBook l.anonSlice

theorem passes_le (hw : w.pageSize = ps) (hps : 0 < ps) {n : Nat} {e : ℚ} {t : Granularity}
    {l : TransLocals} (hpc : (run w table opts mem gen n).pc = .trans e t l) (k : Nat)
    (hin : ∀ j, j ≤ k → inTransition (run w table opts mem gen (n + j)).pc = true)
    (hguard : ∀ j, j < k → Guarded ps (run w table opts mem gen (n + j))) :
    ∃ l', (run w table opts mem gen (n + k)).pc = .trans e t l' ∧ l'.cnt + k ≤ l.cnt := by
  induction k with
  | zero => exact ⟨l, hpc, Nat.le_refl _⟩
  | succ k ih =>
    obtain ⟨l', hpc', hle⟩ := ih (fun j hj => hin j (Nat.le_succ_of_le hj))
      fun j hj => hguard j (Nat.lt_succ_of_lt hj)
    have hlong := hguard k (Nat.lt_succ_self k) e t l' hpc'
    have hnext := hin (k + 1) (Nat.le_refl _)
    obtain ⟨e', t', l'', hpc''⟩ := inTransition_iff.mp hnext
    have hm := (run_turned w table opts mem gen (n + k)).move
    rw [hpc', Nat.add_assoc, hpc''] at hm
    obtain ⟨⟨rfl, rfl⟩, hless⟩ := hm.of_count (hw.symm ▸ hps) (hw.symm ▸ hlong)
    exact ⟨l'', hpc'', by omega⟩

/-- A pass makes progress, on every machine with pages of `ps` bytes, just when
whatever its request may be granted has such a page, or the budget is not
precise. A transition all of whose passes are such ends within its count. -/
theorem transition_progress (ps : Nat) (hps : 0 < ps) :
    (∀ (b : Book) (cnt : Nat) (anonSlice : Int), Ready b → (∀ c ∈ b.fileLst, 0 < c.size) →
      cnt ≠ 0 → (Progresses ps b cnt anonSlice ↔ LongEnough ps b anonSlice)) ∧
    ∀ (γ : Type) (w : World γ) (table : FileTable) (opts : List Opt) (mem : Nat → UInt8) (gen : γ)
      (n k : Nat) (e : ℚ) (t : Granularity) (l : TransLocals), w.pageSize = ps →
      (run w table opts mem gen n).pc = .trans e t l →
      (∀ j, j ≤ k → inTransition (run w table opts mem gen (n + j)).pc = true) →
      (∀ j, j < k → Guarded ps (run w table opts mem gen (n + j))) → k ≤ l.cnt := by
  refine ⟨fun b cnt anonSlice hr hsize more => progresses_iff hps hr hsize more, ?_⟩
  intro γ w table opts mem gen n k e t l hw hpc hin hguard
  obtain ⟨l', _, hle⟩ := passes_le hw hps hpc k hin hguard
  omega

/-- A machine with pages of 64 KiB. -/
def bigPageWorld : World Unit := { plainWorld with pageSize := 65536 }

/-- The first request of a run with `-M 1`. -/
def bigPageRun (n : Nat) : Machine Unit :=
  run bigPageWorld smallTable [.M 1, .e 1, .t 0] (fun _ => 0) () n

theorem transition_progress_big :
    (Progresses 65536 (bigPageRun 2).st.toBook 1 (-1) ↔
      LongEnough 65536 (bigPageRun 2).st.toBook (-1)) ∧
    ∀ k, (∀ j, j ≤ k → inTransition (bigPageRun (2 + j)).pc = true) →
      (∀ j, j < k → Guarded 65536 (bigPageRun (2 + j))) → k ≤ 1 := by
  have hready : Ready (bigPageRun 2).st.toBook :=
    (run_ok bigPageWorld smallTable [.M 1, .e 1, .t 0] (fun _ => 0) () 2).ready
  obtain ⟨hone, hrun⟩ := transition_progress 65536 (by decide)
  refine ⟨hone _ 1 (-1) hready (by decide +kernel) (by decide), fun k => ?_⟩
  exact hrun Unit bigPageWorld smallTable [.M 1, .e 1, .t 0] (fun _ => 0) () 2 k 1 .secs
    ⟨1, 0, -1⟩ rfl (by decide +kernel)

/-- The request was served, and the count is as before. -/
theorem transition_stuck : ¬Progresses 65536 (bigPageRun 2).st.toBook 1 (-1) := by
  intro h
  have hleft : (match transRandAllocPass bigPageWorld ⟨1, 0, -1⟩ (bigPageRun 2).st with
      | .ok l _ => l.cnt
      | .error _ _ => 0) = 1 := by decide +kernel
  cases hrun : transRandAllocPass bigPageWorld ⟨1, 0, -1⟩ (bigPageRun 2).st with
  | ok l t =>
    rw [hrun] at hleft
    have hless := h Unit bigPageWorld _ t 0 l rfl rfl hrun
    exact absurd hleft (Nat.ne_of_lt hless)
  | error e t =>
    rw [hrun] at hleft
    cases hleft

end Gobbler.Proofs
