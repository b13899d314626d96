import Gobbler.Proofs.Records

namespace Gobbler.Proofs

variable {γ : Type} {w : World γ} {b : Book}

/-- The program goes on, or `main` has returned. -/
def NotFailed (pc : Pc) : Prop := halted pc = none ∨ halted pc = some .returned

theorem NotFailed.returned {h : Halt} (hq : NotFailed (.stopped h)) : h = .returned := by
  simpa [NotFailed, halted] using hq

theorem Trouble.not_returned {h : Halt} (ht : Trouble w b h) : h ≠ .returned := by
  rintro rfl
  cases ht with
  | touch why _ => cases why

theorem AbortedFor.not_returned {anonSlice : Int} {h : Halt} {led : Ledger}
    (ha : Aborted w b anonSlice h led) :
    h ≠ .returned := by
  rintro rfl
  cases ha with
  | early why _ =>
    cases why with
    | forced why => cases why

theorem Move.notFailed {v v' : View} (h : Move w v v') (hq : NotFailed v'.pc) : NotFailed v.pc := by
  cases h with
  | idle hi =>
    cases hi with
    | stopped => exact hq
    | _ => exact .inl rfl
  | _ => exact .inl rfl

/-- A turn from here makes a request. -/
def requesting : Pc → Bool
  | .trans _ _ l => l.cnt ≠ 0
  | _ => false

/-- The requests in the first turns of a run. -/
def requestsMade (r : Nat → Machine γ) : Nat → Nat
  | 0 => 0
  | n + 1 => requestsMade r n + if requesting (r n).pc then 1 else 0

theorem taken_counts (ps : Nat) (l : Ledger) (lst : List FileClass) (r : AllocRec)
    (node : Option (Nat × Nat)) : (taken ps l lst r node).typeCnt = l.typeCnt + 1 ∧
      (taken ps l lst r node).refused = l.refused := by
  cases node <;> exact ⟨rfl, rfl⟩

/-- `cnt` counts the requests and nothing else. -/
theorem Move.typeCnt {v v' : View} (h : Move w v v') (hq : NotFailed v'.pc) :
    v'.book.typeCnt = v.book.typeCnt + if requesting v.pc then 1 else 0 := by
  cases h with
  | boot _ ledger _ => simp [ledger, requesting]
  | idle hi =>
    cases hi with
    | leave done _ => simp [left, requesting, done]
    | leaveHalt done _ => simp [left, requesting, done]
    | _ => simp [requesting, unread]
  | finish located _ | overrun located _ | skip located _ | enterHalt located _ _ =>
    simpa [requesting, called, passedOver] using congrArg Ledger.typeCnt located.ledger
  | enter located _ _ _ =>
    simpa [requesting, called, opened] using congrArg Ledger.typeCnt located.ledger
  | request more request =>
    simp only [requesting, decide_eq_true more, if_true]
    cases request with
    | refused => rfl
    | served => exact (taken_counts _ _ _ _ _).1
  | trouble _ _ _ why => exact absurd hq.returned why.not_returned
  | aborted _ aborted => exact absurd hq.returned aborted.not_returned

theorem run_requestsMade (w : World γ) (table : FileTable) (opts : List Opt) (mem : Nat → UInt8)
    (gen : γ) (n : Nat) (hq : NotFailed (run w table opts mem gen n).pc) :
    (run w table opts mem gen n).st.typeCnt = requestsMade (run w table opts mem gen) n := by
  induction n with
  | zero => rfl
  | succ n ih =>
    have hm := (run_turned w table opts mem gen n).move
    rw [requestsMade, ← ih (hm.notFailed hq)]
    exact hm.typeCnt hq

/-- Every request of the run was served or refused. -/
def Requests (v : View) : Prop :=
  NotFailed v.pc → v.book.typeCnt = (allRecords v.book.toLedger).length + v.book.refused

theorem Requests.move {v v' : View} (h : Requests v) (ht : Tracked v.book.toLedger)
    (hm : Move w v v') : Requests v' := by
  intro hq
  have hcnt := h (hm.notFailed hq)
  cases hm with
  | boot _ ledger _ => exact ledger ▸ hcnt
  | idle hi => cases hi <;> exact hcnt
  | finish located _ | overrun located _ | skip located _ | enterHalt located _ _ =>
    exact (congrArg (fun l : Ledger => l.typeCnt = (allRecords l).length + l.refused)
      located.ledger).mpr hcnt
  | @enter b b' cnt i anonSlice located _ _ _ =>
    change (phased b'.toLedger).typeCnt = (allRecords (phased b'.toLedger)).length + _
    rw [located.ledger, allRecords_phased ht]
    exact (congrArg (fun l : Ledger => b.typeCnt = (allRecords b.toLedger).length + l.refused)
      located.ledger).mpr hcnt
  | @request b e t l typ cnt ledger _ request =>
    cases request with
    | refused => exact congrArg (· + 1) hcnt
    | @served lst r node _ _ _ track _ _ =>
      obtain ⟨htype, hrefused⟩ := taken_counts w.pageSize b.toLedger lst r node
      have hlength := congrArg List.length
        (@allRecords_taken w.pageSize b.toLedger lst r node track.1)
      rw [List.length_append, List.length_singleton] at hlength
      change b.typeCnt = (allRecords b.toLedger).length + b.refused at hcnt
      change (taken w.pageSize b.toLedger lst r node).typeCnt =
        (allRecords (taken w.pageSize b.toLedger lst r node)).length +
          (taken w.pageSize b.toLedger lst r node).refused
      rw [htype, hrefused, hlength]
      omega
  | trouble _ _ _ why => exact absurd hq.returned why.not_returned
  | aborted _ aborted => exact absurd hq.returned aborted.not_returned

theorem run_requests (w : World γ) (table : FileTable) (opts : List Opt) (mem : Nat → UInt8)
    (gen : γ) (n : Nat) : Requests (view (run w table opts mem gen n)) :=
  (run_invariant w table opts mem gen (I := fun v => Tracked v.book.toLedger ∧ Requests v)
    ⟨booted_tracked table opts mem gen, fun _ => rfl⟩
    (fun _ _ _ _ hq hm => ⟨hq.1.move hm.ledger, hq.2.move hq.1 hm⟩) n).2

end Gobbler.Proofs
