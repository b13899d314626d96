import Gobbler.Proofs.Counters
import Gobbler.Proofs.Inside

namespace Gobbler.Proofs
open Effect

variable {γ : Type} {w : World γ} {table : FileTable} {opts : List Opt} {mem : Nat → UInt8} {gen : γ}

/-- The row that `main` prints when it comes to its head. -/
def rowOf (w : World γ) (s : St γ) : Row :=
  ⟨s.curJob, wallTime w s.timeG s.wallReads - s.start, s.fileCnt, s.anonCnt,
    wrap (s.fileCnt + s.anonCnt)⟩

/-- The report is as before. -/
structure Silent (s t : St γ) : Prop where
  rows : t.rows = s.rows
  curJob : t.curJob = s.curJob
  verbose : t.verbose = s.verbose

/-- Where its counter of localities overflows, the program ends. -/
def overflown : Option Halt := some (.undefined .overflow)

/-- `main` counted a locality, or could not, and ended like this. -/
structure Tallied (x : Option Halt) (s t : St γ) : Prop where
  rows : t.rows = s.rows
  curJob : x ≠ overflown → t.curJob = s.curJob + 1
  int : s.curJob < 2 ^ 31 → t.curJob < 2 ^ 31
  verbose : t.verbose = s.verbose

/-- Before that it printed its row unless it is not to. -/
structure Printed (w : World γ) (x : Option Halt) (s t : St γ) : Prop where
  rows : t.rows = if s.verbose then rowOf w s :: s.rows else s.rows
  curJob : x ≠ overflown → t.curJob = s.curJob + 1
  int : s.curJob < 2 ^ 31 → t.curJob < 2 ^ 31
  verbose : t.verbose = s.verbose

/-- Before its row, `main` only reads a line. -/
theorem nextLocality_reads (s : St γ) :
    Ends nextLocality s
      (fun _ t => t.rows = s.rows ∧ rowOf w t = rowOf w s ∧ t.curJob = s.curJob ∧
        t.verbose = s.verbose)
      (fun _ t => Silent s t) := by
  unfold nextLocality
  simp only [ends_bind, ends_get]
  rw [ends_ite]
  refine ⟨fun _ => ?_, fun _ => ⟨rfl, rfl, rfl, rfl⟩⟩
  rw [ends_bind]
  refine (getNxtAlloc_ends s.ipfvt s).mono ?_ ?_
  · rintro r t (⟨rfl, rfl, _⟩ | ⟨line, p, ⟨rest, _, rfl⟩, _, rfl⟩) <;> exact ⟨rfl, rfl, rfl, rfl⟩
  · rintro h t ⟨_, line, ⟨rest, _, rfl⟩, _⟩
    exact ⟨rfl, rfl, rfl⟩

theorem report_prints (s : St γ) :
    Ends (report w) s
      (fun _ t => t.rows = (if s.verbose then rowOf w s :: s.rows else s.rows) ∧
        t.curJob = s.curJob ∧ t.verbose = s.verbose)
      (fun _ _ => False) := by
  unfold report
  simp only [ends_bind, ends_get]
  rw [ends_ite]
  refine ⟨fun hv => ?_, fun hv => ?_⟩
  · rw [if_pos hv]
    exact ⟨rfl, rfl, rfl⟩
  · rw [if_neg hv]
    exact ⟨rfl, rfl, rfl⟩

theorem limits_counts (s : St γ) :
    Ends (limits w) s (fun _ t => ∀ x, Tallied x s t) (fun h t => Tallied (some h) s t) := by
  unfold limits
  rw [ends_bind, ends_modify, ends_bind]
  refine (curJobSucc_ends _).mono ?_ ?_
  case refine_2 =>
    rintro _ _ ⟨rfl, _, rfl⟩
    exact ⟨rfl, fun h => absurd rfl h, id, rfl⟩
  rintro _ _ ⟨hint, rfl⟩
  rw [ends_bind, ends_get]
  change Ends (if Over (limited s.toBook s.rows) then _ else _)
    { s with toBook := limited s.toBook s.rows } _ _
  rw [ends_ite]
  refine ⟨fun _ _ => ⟨rfl, fun _ => rfl, fun _ => hint, rfl⟩, fun hgo => ?_⟩
  have hmore : (limited s.toBook s.rows).allocNomore = false := by simpa using (not_or.mp hgo).2
  have hkeep : ∀ (b : Book) (t : St γ), t.toBook = b →
      (b.rows = s.rows ∧ b.curJob = s.curJob + 1 ∧ b.verbose = s.verbose) →
      ∀ x, Tallied x s t := by
    rintro _ t rfl ⟨hrows, hcur, hverb⟩ x
    exact ⟨hrows, fun _ => hcur, fun _ => hcur ▸ hint, hverb⟩
  refine (job_ends (s := { s with toBook := limited s.toBook s.rows }) hmore).mono ?_ ?_
  · rintro pc t ⟨_, ⟨_, _, hb⟩ | ⟨l, _, _, _, hb⟩⟩
    · exact hkeep _ t hb ⟨rfl, rfl, rfl⟩
    · exact hkeep _ t hb ⟨rfl, rfl, rfl⟩
  · rintro h t ⟨_, hb, _⟩
    exact hkeep _ t hb ⟨rfl, rfl, rfl⟩ _

theorem mainPass_prints (s : St γ) :
    Ends (mainPass w) s (fun pc t => Silent s t ∨ Printed w (halted pc) s t)
      (fun h t => Silent s t ∨ Printed w (some h) s t) := by
  unfold mainPass
  rw [ends_bind]
  refine (nextLocality_reads (w := w) s).mono ?_ fun _ _ h => .inl h
  rintro go t ⟨hrows, hrow, hcur, hverb⟩
  rw [ends_ite]
  refine ⟨fun _ => ?_, fun _ => .inl ⟨hrows, hcur, hverb⟩⟩
  rw [ends_bind]
  refine (report_prints t).mono ?_ fun _ _ h => h.elim
  rintro _ u ⟨hrows', hcur', hverb'⟩
  rw [hverb, hrow, hrows] at hrows'
  have hcount : u.curJob = s.curJob := hcur'.trans hcur
  have hprinted : ∀ (x : Option Halt) (v : St γ), Tallied x u v → Printed w x s v := fun x v hv =>
    ⟨hv.rows.trans hrows', hcount ▸ hv.curJob, hcount ▸ hv.int, hv.verbose.trans (hverb'.trans hverb)⟩
  exact (limits_counts u).mono (fun _ v hv => .inr (hprinted _ v (hv _)))
    fun _ v hv => .inr (hprinted _ v hv)

/-- Away from its head `main` prints nothing. -/
theorem Move.silent {v v' : View} (hm : Move w v v') (hmain : v.pc ≠ .main) :
    v'.book.rows = v.book.rows ∧ v'.book.curJob = v.book.curJob ∧
      ((∀ os, v.pc ≠ .boot os) → v'.book.verbose = v.book.verbose) := by
  cases hm with
  | boot configured => exact ⟨configured.rows, configured.curJob, fun h => absurd rfl (h _)⟩
  | idle hi =>
    cases hi with
    | ended | unread => exact absurd rfl hmain
    | _ => exact ⟨rfl, rfl, fun _ => rfl⟩
  | finish | overrun | skip | enter | enterHalt => exact absurd rfl hmain
  | request | trouble | aborted => exact ⟨rfl, rfl, fun _ => rfl⟩

/-- The rows so far, newest first: each was true in the state in which it was
printed, and these states follow one another as the rows do. -/
structure Reported (w : World γ) (m : Nat → Machine γ) (n : Nat) : Prop where
  booting : ∀ os, (m n).pc = .boot os → (m n).st.rows = [] ∧ (m n).st.curJob = 0
  numbered : (m n).st.rows.map Row.curJob = (List.range (m n).st.rows.length).reverse
  count : halted (m n).pc ≠ overflown →
    (m n).st.rows.length = if (m n).st.verbose then (m n).st.curJob else 0
  int : (m n).st.curJob < 2 ^ 31
  truth : ∀ row ∈ (m n).st.rows, ∃ k, k < n ∧ (m k).pc = .main ∧ row = rowOf w (m k).st
  order : (m n).st.rows.Pairwise fun newer older => ∃ i j, i < j ∧ j < n ∧ (m i).pc = .main ∧
    (m j).pc = .main ∧ older = rowOf w (m i).st ∧ newer = rowOf w (m j).st

section step

variable {m : Nat → Machine γ} {n : Nat}

theorem Reported.silent (h : Reported w m n) (hrows : (m (n + 1)).st.rows = (m n).st.rows)
    (hcur : (m (n + 1)).st.curJob = (m n).st.curJob)
    (hverb : (m (n + 1)).st.verbose = (m n).st.verbose ∨
      ((m n).st.rows = [] ∧ (m n).st.curJob = 0))
    (hrun : halted (m n).pc = overflown → halted (m (n + 1)).pc = overflown)
    (hboot : ∀ os, (m (n + 1)).pc ≠ .boot os) : Reported w m (n + 1) := by
  refine ⟨fun os hos => absurd hos (hboot os), ?_, fun hne => ?_, hcur ▸ h.int, ?_, ?_⟩
  · rw [hrows]
    exact h.numbered
  · rw [hrows, hcur]
    rcases hverb with hverb | ⟨hnone, hzero⟩
    · rw [hverb]
      exact h.count fun hover => hne (hrun hover)
    · simp [hnone, hzero]
  · rw [hrows]
    intro row hrow
    obtain ⟨k, hk, hmain, heq⟩ := h.truth row hrow
    exact ⟨k, by omega, hmain, heq⟩
  · rw [hrows]
    apply h.order.imp
    rintro newer older ⟨i, j, hij, hj, hrest⟩
    exact ⟨i, j, hij, by omega, hrest⟩

theorem Reported.printed (h : Reported w m n) (hmain : (m n).pc = .main)
    (hp : Printed w (halted (m (n + 1)).pc) (m n).st (m (n + 1)).st)
    (hboot : ∀ os, (m (n + 1)).pc ≠ .boot os) : Reported w m (n + 1) := by
  have hint := hp.int h.int
  have hcount := h.count (by simp [hmain, halted, overflown])
  cases hverb : (m n).st.verbose with
  | false =>
    have hrows := hp.rows
    rw [hverb] at hrows hcount
    have hnone : (m n).st.rows = [] := by simpa using hcount
    have hempty : (m (n + 1)).st.rows = [] := by simpa [hnone] using hrows
    refine ⟨fun os hos => absurd hos (hboot os), ?_, fun _ => ?_, hint, ?_, ?_⟩ <;>
      simp [hempty, hp.verbose, hverb]
  | true =>
    have hrows := hp.rows
    rw [hverb] at hrows hcount
    simp only [if_true] at hrows hcount
    refine ⟨fun os hos => absurd hos (hboot os), ?_, fun hne => ?_, hint, ?_, ?_⟩
    · rw [hrows, List.map_cons, h.numbered, List.length_cons, List.range_succ, List.reverse_append,
        hcount]
      rfl
    · rw [hrows, hp.verbose, hverb, hp.curJob hne, if_pos rfl, List.length_cons, hcount]
    · rw [hrows]
      intro row hrow
      rcases List.mem_cons.mp hrow with rfl | hold
      · exact ⟨n, Nat.lt_succ_self n, hmain, rfl⟩
      · obtain ⟨k, hk, hrest⟩ := h.truth row hold
        exact ⟨k, by omega, hrest⟩
    · rw [hrows, List.pairwise_cons]
      refine ⟨fun older hold => ?_, h.order.imp ?_⟩
      · obtain ⟨k, hk, hkmain, rfl⟩ := h.truth older hold
        exact ⟨k, n, hk, Nat.lt_succ_self n, hkmain, hmain, rfl, rfl⟩
      · rintro newer older ⟨i, j, hij, hj, hrest⟩
        exact ⟨i, j, hij, by omega, hrest⟩

end step

theorem run_reported (w : World γ) (table : FileTable) (opts : List Opt) (mem : Nat → UInt8)
    (gen : γ) (n : Nat) : Reported w (run w table opts mem gen) n := by
  induction n with
  | zero =>
    exact ⟨fun _ _ => ⟨rfl, rfl⟩, rfl, fun _ => rfl, by simp [run, initial], by simp [run, initial],
      by simp [run, initial]⟩
  | succ n ih =>
    have hmove := (run_turned w table opts mem gen n).move
    have hboot : ∀ os, (run w table opts mem gen (n + 1)).pc ≠ .boot os := hmove.booted
    have hhalt : halted (run w table opts mem gen n).pc = overflown →
        halted (run w table opts mem gen (n + 1)).pc = overflown := by
      intro hover
      rw [run_succ, step_halted hover]
      exact hover
    by_cases hmain : (run w table opts mem gen n).pc = .main
    · have hstep : Silent (run w table opts mem gen n).st (run w table opts mem gen (n + 1)).st ∨
          Printed w (halted (run w table opts mem gen (n + 1)).pc) (run w table opts mem gen n).st
            (run w table opts mem gen (n + 1)).st := by
        rw [run_succ]
        refine step_of_ends (P := fun m => Silent _ m.st ∨ Printed w (halted m.pc) _ m.st) ?_
        rw [hmain]
        exact mainPass_prints _
      rcases hstep with hs | hp
      · exact ih.silent hs.rows hs.curJob (.inl hs.verbose) hhalt hboot
      · exact ih.printed hmain hp hboot
    · obtain ⟨hrows, hcur, hverb⟩ := hmove.silent hmain
      refine ih.silent hrows hcur ?_ hhalt hboot
      cases hpc : (run w table opts mem gen n).pc with
      | boot os => exact .inr (ih.booting os hpc)
      | _ => exact .inl (hverb (by simp [hpc]))

/-- The records only grow, at their end. -/
theorem run_records (w : World γ) (table : FileTable) (opts : List Opt) (mem : Nat → UInt8) (gen : γ)
    (n k : Nat) : allRecords (run w table opts mem gen n).st.toLedger <+:
      allRecords (run w table opts mem gen (n + k)).st.toLedger := by
  induction k with
  | zero => exact List.prefix_rfl
  | succ k ih =>
    refine ih.trans ?_
    have hmove := (run_turned w table opts mem gen (n + k)).move.ledger
    rcases hmove.records (run_tracked w table opts mem gen (n + k)) with hsame | ⟨_, r, _, _, happ, _⟩
    · exact hsame ▸ List.prefix_rfl
    · exact happ ▸ List.prefix_append _ _

theorem pagesOf_prefix (ps : Nat) (type : MemType) {rs rs' : List AllocRec} (h : rs <+: rs') :
    pagesOf ps type rs ≤ pagesOf ps type rs' := by
  obtain ⟨more, rfl⟩ := h
  simp [pagesOf]

/-- Every mapping lies in an address space of 64 bits. -/
def InSpace (l : Ledger) : Prop := ∀ r ∈ allRecords l, r.addr + r.len ≤ 2 ^ 64

theorem sum_len_le {l : Ledger} (hp : Placed l) (hs : InSpace l) :
    ((allRecords l).map AllocRec.len).sum ≤ 2 ^ 64 := by
  have hle := hp.apart.sum_ncard_le (s := Set.Ico 0 (2 ^ 64)) (Set.finite_Ico _ _) fun r hr a ha =>
    ⟨Nat.zero_le a, Nat.lt_of_lt_of_le ha.2 (hs r hr)⟩
  simpa [region, Set.ncard_eq_toFinset_card'] using hle

theorem pagesOf_le (rs : List AllocRec) :
    4096 * (pagesOf 4096 .file rs + pagesOf 4096 .anon rs) ≤ (rs.map AllocRec.len).sum := by
  induction rs using List.reverseRecOn with
  | nil => simp
  | append_singleton rs r ih =>
    rw [pagesOf_append, pagesOf_append, List.map_append, List.sum_append]
    cases htype : r.type <;>
      simp only [reduceCtorEq, if_true, if_false, List.map_singleton, List.sum_singleton] <;> omega

/-- Where every mapping has a place of its own, no page counter wraps. -/
theorem counters_exact {l : Ledger} (ha : Accounts 4096 l) (hp : Placed l) (hs : InSpace l) :
    l.fileCnt = pagesOf 4096 .file (allRecords l) ∧ l.anonCnt = pagesOf 4096 .anon (allRecords l) ∧
      wrap (l.fileCnt + l.anonCnt) = l.fileCnt + l.anonCnt := by
  have hlen := sum_len_le hp hs
  have hpages := pagesOf_le (allRecords l)
  have hfile := ha.file
  have hanon := ha.anon
  rw [wrap_of_lt (by omega)] at hfile hanon
  exact ⟨hfile, hanon, wrap_of_lt (by omega)⟩

/-- The report is numbered without a gap, one row for each locality counted.
Each row shows exactly the pages of the mappings made before it, and from row to
row the pages never become fewer. Where the counter of localities overflows, the
row of the last one is there already. -/
theorem report_exact (w : World γ) (hps : w.pageSize = 4096) (table : FileTable) (opts : List Opt)
    (mem : Nat → UInt8) (gen : γ) (hplaced : ∀ n, Placed (run w table opts mem gen n).st.toLedger)
    (hspace : ∀ n, InSpace (run w table opts mem gen n).st.toLedger) (n : Nat) :
    let s := (run w table opts mem gen n).st
    s.rows.map Row.curJob = (List.range s.rows.length).reverse ∧
      (halted (run w table opts mem gen n).pc ≠ some (.undefined .overflow) →
        s.rows.length = if s.verbose then s.curJob else 0) ∧
      (∀ row ∈ s.rows, row.curJob < 2 ^ 31 ∧ ∃ k, k < n ∧ (run w table opts mem gen k).pc = .main ∧
        let t := (run w table opts mem gen k).st
        row.curJob = t.curJob ∧
          row.fileCnt = pagesOf 4096 .file (allRecords t.toLedger) ∧
          row.anonCnt = pagesOf 4096 .anon (allRecords t.toLedger) ∧
          row.total = row.fileCnt + row.anonCnt) ∧
      s.rows.Pairwise fun newer older =>
        older.fileCnt ≤ newer.fileCnt ∧ older.anonCnt ≤ newer.anonCnt ∧ older.total ≤ newer.total := by
  have h := run_reported w table opts mem gen n
  have hexact : ∀ k, (run w table opts mem gen k).pc = .main → _ := fun k hpc =>
    counters_exact (hps ▸ run_accounts w table opts mem gen k (by rw [hpc]; rfl)) (hplaced k) (hspace k)
  refine ⟨h.numbered, h.count, ?_, ?_⟩
  · intro row hrow
    obtain ⟨k, hk, hmain, rfl⟩ := h.truth row hrow
    obtain ⟨hfile, hanon, htotal⟩ := hexact k hmain
    have hint := (run_reported w table opts mem gen k).int
    exact ⟨hint, k, hk, hmain, rfl, hfile, hanon, htotal⟩
  · apply h.order.imp
    rintro newer older ⟨i, j, hij, hj, hi, hjmain, rfl, rfl⟩
    obtain ⟨hfile, hanon, htotal⟩ := hexact i hi
    obtain ⟨hfile', hanon', htotal'⟩ := hexact j hjmain
    obtain ⟨d, rfl⟩ := Nat.exists_eq_add_of_le hij.le
    have hprefix := run_records w table opts mem gen i d
    have hfiles := pagesOf_prefix 4096 .file hprefix
    have hanons := pagesOf_prefix 4096 .anon hprefix
    simp only [rowOf, htotal, htotal']
    omega

theorem twoPhases_inSpace (n : Nat) : InSpace (twoPhases n).st.toLedger := by
  have hall : ∀ k, k < 14 → ∀ r ∈ allRecords (twoPhases k).st.toLedger, r.addr + r.len ≤ 2 ^ 64 := by
    decide +kernel
  have hstop : halted (twoPhases 13).pc = some .returned := by decide +kernel
  by_cases hn : n < 14
  · exact hall n hn
  · have heq : twoPhases n = twoPhases 13 := run_halted hstop (by omega)
    rw [heq]
    exact hall 13 (by decide)

theorem report_exact_two :
    let s := (twoPhases 13).st
    s.rows.map Row.curJob = (List.range s.rows.length).reverse ∧
      (halted (twoPhases 13).pc ≠ some (.undefined .overflow) →
        s.rows.length = if s.verbose then s.curJob else 0) ∧
      (∀ row ∈ s.rows, row.curJob < 2 ^ 31 ∧ ∃ k, k < 13 ∧ (twoPhases k).pc = .main ∧
        let t := (twoPhases k).st
        row.curJob = t.curJob ∧
          row.fileCnt = pagesOf 4096 .file (allRecords t.toLedger) ∧
          row.anonCnt = pagesOf 4096 .anon (allRecords t.toLedger) ∧
          row.total = row.fileCnt + row.anonCnt) ∧
      s.rows.Pairwise fun newer older =>
        older.fileCnt ≤ newer.fileCnt ∧ older.anonCnt ≤ newer.anonCnt ∧ older.total ≤ newer.total :=
  report_exact plainWorld rfl smallTable [.p 3, .M 2, .e 1, .t 0] (fun _ => 0) () twoPhases_placed
    twoPhases_inSpace 13

end Gobbler.Proofs
