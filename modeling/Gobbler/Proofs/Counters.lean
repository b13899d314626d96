import Gobbler.Proofs.Records

namespace Gobbler.Proofs

variable {γ : Type} {w : World γ} {table : FileTable} {ps : Nat} {b : Book} {l : Ledger}

/-- The pages of the records of one type. -/
def pagesOf (ps : Nat) (type : MemType) (rs : List AllocRec) : Nat :=
  ((rs.filter fun r => r.type = type).map fun r => r.len / ps).sum

@[simp] theorem pagesOf_nil (type : MemType) : pagesOf ps type [] = 0 := rfl

@[simp] theorem pagesOf_append (type : MemType) (rs : List AllocRec) (r : AllocRec) :
    pagesOf ps type (rs ++ [r]) = pagesOf ps type rs + if r.type = type then r.len / ps else 0 := by
  by_cases h : r.type = type <;> simp [pagesOf, h]

theorem wrap_add (a b : Nat) : wrap (wrap a + b) = wrap (a + b) := by
  simp only [wrap]
  omega

theorem wrap_add_right (a b : Nat) : wrap (a + wrap b) = wrap (a + b) := by
  simp only [wrap]
  omega

/-- The three page counters agree with the tracker. -/
structure Accounts (ps : Nat) (l : Ledger) : Prop where
  total : l.totalAllocPages = wrap (l.fileCnt + l.anonCnt)
  file : l.fileCnt = wrap (pagesOf ps .file (allRecords l))
  anon : l.anonCnt = wrap (pagesOf ps .anon (allRecords l))

/-- A served request counts the pages of its record once, under its type. -/
theorem Accounts.taken (h : Accounts ps l) (hc : 0 ≤ l.curr) {r : AllocRec}
    (ht : r.type = .file ∨ r.type = .anon) (lst : List FileClass) (node : Option (Nat × Nat)) :
    Accounts ps (taken ps l lst r node) := by
  have hrec : allRecords (Proofs.taken ps l lst r node) = allRecords l ++ [r] := allRecords_taken hc
  have hcnt : ∀ led : Ledger, (marked led node).totalAllocPages = led.totalAllocPages ∧
      (marked led node).fileCnt = led.fileCnt ∧ (marked led node).anonCnt = led.anonCnt := by
    intro led
    cases node <;> exact ⟨rfl, rfl, rfl⟩
  obtain ⟨h1, h2, h3⟩ := hcnt (paged (recorded (searched (counted l) lst) r) r.type (r.len / ps))
  have htotal := h.total
  have hfile := h.file
  have hanon := h.anon
  refine ⟨?_, ?_, ?_⟩
  · rw [Proofs.taken, h1, h2, h3]
    rcases ht with ht | ht
    · simp only [paged, recorded, searched, counted, ht, if_true, reduceCtorEq, if_false, htotal, wrap]
      omega
    · simp only [paged, recorded, searched, counted, ht, if_true, reduceCtorEq, if_false, htotal, wrap]
      omega
  · rw [hrec, pagesOf_append, Proofs.taken, h2]
    rcases ht with ht | ht
    · simp only [paged, recorded, searched, counted, ht, if_true, hfile, wrap_add]
    · simp only [paged, recorded, searched, counted, ht, reduceCtorEq, if_false, hfile, Nat.add_zero]
  · rw [hrec, pagesOf_append, Proofs.taken, h3]
    rcases ht with ht | ht
    · simp only [paged, recorded, searched, counted, ht, reduceCtorEq, if_false, hanon, Nat.add_zero]
    · simp only [paged, recorded, searched, counted, ht, if_true, hanon, wrap_add]

theorem Accounts.move (h : Accounts w.pageSize b.toLedger) (ht : Tracked b.toLedger)
    (hm : LedgerMove w b none l) : Accounts w.pageSize l := by
  cases hm with
  | same => exact h
  | phase _ =>
    have hrec := allRecords_phased ht
    exact ⟨h.total, hrec.symm ▸ h.file, hrec.symm ▸ h.anon⟩
  | request request =>
    cases request with
    | refused => exact ⟨h.total, h.file, h.anon⟩
    | served chosen _ _ track _ => exact h.taken track.1 chosen.cases _ _

/-- As long as the program runs, and so whenever `main` prints its row, the
page counters agree with each other and with the records of all phases. -/
theorem run_accounts (w : World γ) (table : FileTable) (opts : List Opt) (mem : Nat → UInt8)
    (gen : γ) (n : Nat) (hrun : halted (run w table opts mem gen n).pc = none) :
    Accounts w.pageSize (run w table opts mem gen n).st.toLedger := by
  refine (run_invariant w table opts mem gen (I := fun v => Tracked v.book.toLedger ∧
    (halted v.pc = none → Accounts w.pageSize v.book.toLedger)) ?_ ?_ n).2 hrun
  · exact ⟨booted_tracked table opts mem gen, fun _ => ⟨by simp [view, booted, initial, wrap],
      by simp [view, booted, initial, wrap, allRecords], by simp [view, booted, initial, wrap, allRecords]⟩⟩
  · intro v v' _ _ hq hm
    obtain ⟨ht, ha⟩ := hq
    refine ⟨ht.move hm.ledger, fun hrun => ?_⟩
    have hl := hm.ledger
    rw [hrun] at hl
    exact (ha (hm.running hrun)).move ht hl

theorem report_counters (w : World γ) (hp : w.pageSize = 4096) (table : FileTable)
    (opts : List Opt) (mem : Nat → UInt8) (gen : γ) (n : Nat)
    (hrun : halted (run w table opts mem gen n).pc = none) :
    let s := (run w table opts mem gen n).st
    s.totalAllocPages = wrap (s.fileCnt + s.anonCnt) ∧
      s.fileCnt = wrap (pagesOf 4096 .file (allRecords s.toLedger)) ∧
      s.anonCnt = wrap (pagesOf 4096 .anon (allRecords s.toLedger)) := by
  have h := run_accounts w table opts mem gen n hrun
  rw [hp] at h
  exact ⟨h.total, h.file, h.anon⟩

/-- Before the third row: six file pages and an anonymous one, in two phases. -/
theorem report_counters_third_row :
    let s := (run plainWorld smallTable [.M 3, .e 1, .t 0] (fun _ => 0) () 14).st
    s.totalAllocPages = wrap (s.fileCnt + s.anonCnt) ∧
      s.fileCnt = wrap (pagesOf 4096 .file (allRecords s.toLedger)) ∧
      s.anonCnt = wrap (pagesOf 4096 .anon (allRecords s.toLedger)) :=
  report_counters plainWorld rfl smallTable [.M 3, .e 1, .t 0] (fun _ => 0) () 14 (by decide +kernel)

end Gobbler.Proofs
