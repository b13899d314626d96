import Gobbler.Proofs.Limit

namespace Gobbler.Proofs

variable {γ : Type} {w : World γ} {table : FileTable} {opts : List Opt} {mem : Nat → UInt8}
  {gen : γ} {b : Book} {l : Ledger} {x : Option Halt}

/-- What every user of the tracker relies on. -/
structure Representation (l : Ledger) : Prop where
  count : ∀ i, (l.allocTrack i).length ≤ maxAllocPerSe
  above : ∀ i : Nat, l.curr < i → l.allocTrack i = []
  length : ∀ i, ∀ r ∈ l.allocTrack i, 0 < r.len ∧ 4096 ∣ r.len
  type : ∀ i, ∀ r ∈ l.allocTrack i, r.type = .file ∨ r.type = .anon

/-- One list was appended to, and no other changed. -/
def Appended (i : Nat) (track track' : Nat → List AllocRec) : Prop :=
  ∃ recs, track' = Function.update track i (track i ++ recs)

theorem Appended.refl (i : Nat) (track : Nat → List AllocRec) : Appended i track track :=
  ⟨[], by rw [List.append_nil, Function.update_eq_self]⟩

theorem Appended.trans {i : Nat} {t t' t'' : Nat → List AllocRec} (h : Appended i t t')
    (h' : Appended i t' t'') : Appended i t t'' := by
  obtain ⟨recs, rfl⟩ := h
  obtain ⟨recs', rfl⟩ := h'
  refine ⟨recs ++ recs', ?_⟩
  rw [Function.update_self, Function.update_idem, List.append_assoc]

/-- A move leaves the tracker, or appends one record to the list of its phase. -/
theorem LedgerMove.track (hm : LedgerMove w b x l) :
    l.allocTrack = b.allocTrack ∨ ∃ r,
      l.allocTrack = Function.update b.allocTrack b.curr.toNat (current b ++ [r]) ∧
      (current b).length < maxAllocPerSe ∧ (r.type = .file ∨ r.type = .anon) := by
  cases hm with
  | same => exact .inl rfl
  | phase _ => exact .inl rfl
  | request request =>
    cases request with
    | refused => exact .inl rfl
    | @served lst r node chosen _ _ _ room =>
      obtain ⟨ht, _⟩ := marked_track
        (paged (recorded (searched (counted b.toLedger) lst) r) r.type (r.len / w.pageSize)) node
      exact .inr ⟨r, ht, room, chosen.cases⟩
  | aborted aborted => cases aborted <;> exact .inl rfl

/-- The lists are short, and every record has one of the two types. -/
structure Listed (l : Ledger) : Prop where
  count : ∀ i, (l.allocTrack i).length ≤ maxAllocPerSe
  type : ∀ i, ∀ r ∈ l.allocTrack i, r.type = .file ∨ r.type = .anon

theorem Listed.move (h : Listed b.toLedger) (hm : LedgerMove w b x l) : Listed l := by
  rcases hm.track with hsame | ⟨r, happ, hroom, htype⟩
  · exact ⟨hsame ▸ h.count, hsame ▸ h.type⟩
  · refine ⟨fun i => ?_, fun i r' hr' => ?_⟩
    · by_cases hi : i = b.curr.toNat
      · subst hi
        rw [happ, Function.update_self, List.length_append]
        exact hroom
      · rw [happ, Function.update_of_ne hi]
        exact h.count i
    · by_cases hi : i = b.curr.toNat
      · subst hi
        rw [happ, Function.update_self] at hr'
        rcases List.mem_append.mp hr' with hold | hnew
        · exact h.type _ r' hold
        · exact List.mem_singleton.mp hnew ▸ htype
      · rw [happ, Function.update_of_ne hi] at hr'
        exact h.type i r' hr'

theorem run_listed (w : World γ) (table : FileTable) (opts : List Opt) (mem : Nat → UInt8)
    (gen : γ) (n : Nat) : Listed (run w table opts mem gen n).st.toLedger := by
  refine run_invariant w table opts mem gen (I := fun v => Listed v.book.toLedger) ?_ ?_ n
  · refine ⟨fun _ => Nat.zero_le _, fun _ r hr => ?_⟩
    simp [view, booted, initial] at hr
  · intro _ _ _ _ h hm
    exact h.move hm.ledger

theorem run_representation (ht : PageTable table) (n : Nat) :
    Representation (run w table opts mem gen n).st.toLedger := by
  have htr := run_tracked w table opts mem gen n
  have hl := run_listed w table opts mem gen n
  refine ⟨hl.count, htr.above, fun i r hr => ?_, hl.type⟩
  have hi : (i : Int) ≤ (run w table opts mem gen n).st.curr := by
    by_contra hlt
    rw [htr.above i (by omega)] at hr
    cases hr
  obtain ⟨hpos, hdvd, _⟩ := run_paged w ht opts mem gen n r (mem_allRecords.mpr ⟨i, hi, hr⟩)
  exact ⟨hpos, hdvd⟩

theorem Move.of_trans {b' : Book} {e : ℚ} {t : Granularity} {l : TransLocals} {pc : Pc}
    (h : Move w ⟨b, .trans e t l⟩ ⟨b', pc⟩) :
    b'.curr = b.curr ∧ Appended b.curr.toNat b.allocTrack b'.allocTrack := by
  have happ : Appended b.curr.toNat b.allocTrack b'.allocTrack := by
    rcases h.ledger.track with hsame | ⟨r, hr, _⟩
    · exact hsame ▸ Appended.refl _ _
    · exact ⟨[r], hr⟩
  refine ⟨?_, happ⟩
  cases h with
  | idle hi => cases hi <;> rfl
  | request _ request | trouble _ request _ _ => exact request.curr
  | aborted _ aborted => cases aborted <;> rfl

theorem Move.of_entry {b' : Book} {e : ℚ} {t : Granularity} {l : TransLocals}
    (h : Move w ⟨b, .main⟩ ⟨b', .trans e t l⟩) :
    b'.curr = b.curr + 1 ∧ b'.allocTrack = b.allocTrack := by
  cases h with
  | idle hi => cases hi
  | enter located _ _ _ =>
    have hl := located.ledger
    have htrack := congrArg Ledger.allocTrack hl
    exact ⟨congrArg (fun l : Ledger => l.curr + 1) hl, htrack⟩

theorem Move.of_holding {b' : Book} {l : HoldLocals} {pc : Pc} (h : Move w ⟨b, .hold l⟩ ⟨b', pc⟩) :
    b'.toLedger = b.toLedger := by
  cases h with
  | idle hi => cases hi <;> rfl

/-- The passes of a transition append to the list of its phase. -/
theorem transition_appends {n : Nat} (k : Nat)
    (hin : ∀ j, j < k → inTransition (run w table opts mem gen (n + j)).pc = true) :
    (run w table opts mem gen (n + k)).st.curr = (run w table opts mem gen n).st.curr ∧
      Appended (run w table opts mem gen n).st.curr.toNat
        (run w table opts mem gen n).st.allocTrack (run w table opts mem gen (n + k)).st.allocTrack := by
  induction k with
  | zero => exact ⟨rfl, Appended.refl _ _⟩
  | succ k ih =>
    obtain ⟨hcurr, happ⟩ := ih fun j hj => hin j (Nat.lt_succ_of_lt hj)
    obtain ⟨e, t, l, hpc⟩ := inTransition_iff.mp (hin k (Nat.lt_succ_self k))
    have hm := (run_turned w table opts mem gen (n + k)).move
    rw [hpc] at hm
    obtain ⟨hcurr', happ'⟩ := hm.of_trans
    rw [hcurr] at hcurr' happ'
    exact ⟨hcurr', happ.trans happ'⟩

/-- The passes of a holding state leave the tracker as it is. -/
theorem holding_keeps {n : Nat} (k : Nat)
    (hin : ∀ j, j < k → inHolding (run w table opts mem gen (n + j)).pc = true) :
    (run w table opts mem gen (n + k)).st.allocTrack = (run w table opts mem gen n).st.allocTrack := by
  induction k with
  | zero => rfl
  | succ k ih =>
    have hk := ih fun j hj => hin j (Nat.lt_succ_of_lt hj)
    obtain ⟨l, hpc⟩ := inHolding_iff.mp (hin k (Nat.lt_succ_self k))
    have hm := (run_turned w table opts mem gen (n + k)).move
    rw [hpc] at hm
    exact (congrArg Ledger.allocTrack hm.of_holding).trans hk

/-- The tracker is well formed in every state of a run. A transition appends to
the list of the phase it opens and changes no other, and a holding state changes none. -/
theorem tracker_representation (w : World γ) (table : FileTable) (ht : PageTable table)
    (opts : List Opt) (mem : Nat → UInt8) (gen : γ) (n k : Nat) :
    let s := run w table opts mem gen n
    Representation s.st.toLedger ∧
    (s.pc = .main → (∀ j, j < k → inTransition (run w table opts mem gen (n + 1 + j)).pc = true) → 0 < k →
      (run w table opts mem gen (n + 1 + k)).st.curr = s.st.curr + 1 ∧
      Appended (s.st.curr + 1).toNat s.st.allocTrack
        (run w table opts mem gen (n + 1 + k)).st.allocTrack) ∧
    ((∀ j, j < k → inHolding (run w table opts mem gen (n + j)).pc = true) →
      (run w table opts mem gen (n + k)).st.allocTrack = s.st.allocTrack) := by
  refine ⟨run_representation ht n, fun hmain hin hk => ?_, holding_keeps k⟩
  obtain ⟨e, t, l, hpc⟩ := inTransition_iff.mp (hin 0 hk)
  have hm := (run_turned w table opts mem gen n).move
  rw [Nat.add_zero] at hpc
  rw [hmain, hpc] at hm
  obtain ⟨hcurr, htrack⟩ := hm.of_entry
  obtain ⟨hcurr', happ⟩ := transition_appends k hin
  rw [hcurr, htrack] at happ
  exact ⟨hcurr'.trans hcurr, happ⟩

/-- A phase of two pages on the plain machine: two requests, then a holding state. -/
theorem tracker_representation_two :
    let two := run plainWorld smallTable [.p 3, .M 2, .e 1, .t 0] (fun _ => 0) ()
    Representation (two 1).st.toLedger ∧
    ((two 5).st.curr = (two 1).st.curr + 1 ∧
      Appended ((two 1).st.curr + 1).toNat (two 1).st.allocTrack (two 5).st.allocTrack) := by
  have htable : PageTable smallTable := by simp [PageTable, smallTable, pageSize]
  have hfacts := tracker_representation plainWorld smallTable htable [.p 3, .M 2, .e 1, .t 0]
    (fun _ => 0) () 1 3
  exact ⟨hfacts.1, hfacts.2.1 rfl (by decide +kernel) (by decide)⟩

end Gobbler.Proofs
