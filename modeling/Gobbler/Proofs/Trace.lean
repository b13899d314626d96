import Gobbler.Proofs.Progress
import Gobbler.Proofs.Records

namespace Gobbler.Proofs

variable {γ : Type} {w : World γ} {table : FileTable} {b : Book} {limit n k : Nat}

/-- A vector of `n` lines that can all be read. -/
def Lines (isIpfvt : Bool) : Nat → List Char → Prop
  | 0, s => getline s = none
  | n + 1, s => ∃ line rest p, getline s = some (line, rest) ∧ parseLine isIpfvt line = some p ∧
      Lines isIpfvt n rest

/-- The options ask for trace mode, with these bytes. -/
def TraceMode (opts : List Opt) (bytes : List Char) : Prop :=
  opts.foldl vectorSet (false, []) = (true, bytes) ∧ opts.foldl traceSet false = true

/-- No file request was refused, the page limit is kept, no locality was
skipped, and the CPU clock gets as far as a holding state needs. -/
structure Smooth (w : World γ) (m : Machine γ) : Prop where
  refused : m.st.refused = 0
  limit : m.st.fileCnt + m.st.anonCnt ≤ m.st.maxLimit
  skipped : m.st.skipped = 0
  clock : ∀ l, m.pc = .hold l →
    ∃ last, ∀ k, last ≤ k → l.execTime ≤ l.run + (cpuTime w l.t k - l.now)

/-- The first `k` phases have one page each, of the type the counter asked for. -/
structure OnePage (k : Nat) (l : Ledger) : Prop where
  curr : l.curr + 1 = k
  typeCnt : l.typeCnt = k
  total : l.totalAllocPages = k
  anon : l.anonCnt = (k - 1) / 4
  records : ∀ i, i < k → ∃ r, l.allocTrack i = [r] ∧ r.len = pageSize ∧ r.type = countedType i

/-- The books before a locality, `k` lines after the start of a trace of `n`. -/
structure Traced (limit n k : Nat) (b : Book) : Prop where
  vector : b.vector = true
  trace : b.ipfvt = true
  lines : Lines true (n - k) b.vectorStream
  phases : b.maxPhase = limit
  nomore : b.allocNomore = false
  curJob : b.curJob = k
  pages : OnePage k b.toLedger

theorem parseLine_trace {line : List Char} {p : Nat × ℚ} (h : parseLine true line = some p) :
    p.1 = 1 := by
  simp only [parseLine, if_true] at h
  cases ht : (strtok '\t' (strtok '\t' (cString line)).2).1 with
  | none => simp [ht] at h
  | some t =>
    simp only [ht, Option.some.injEq] at h
    exact h ▸ rfl

theorem countedType_eq (k : Nat) :
    countedType k = if 0 < k ∧ k % 4 = 0 then .anon else .file := by
  unfold countedType fileRatio
  by_cases hk : 0 < k ∧ k % 4 = 0
  · rw [if_pos hk, if_pos ⟨hk.2, Nat.ne_of_gt hk.1⟩]
  · rw [if_neg hk, if_neg fun h => hk ⟨Nat.pos_of_ne_zero h.2, h.1⟩]

/-- The anonymous pages after `k` requests of one page. -/
theorem anon_next (k : Nat) :
    (if countedType k = .anon then (k - 1) / 4 + 1 else (k - 1) / 4) = k / 4 := by
  rw [countedType_eq]
  by_cases hk : 0 < k ∧ k % 4 = 0
  · rw [if_pos hk, if_pos rfl]
    omega
  · rw [if_neg hk, if_neg (by simp)]
    omega

/-- A request of one page gives the new phase its one record. -/
theorem OnePage.served {l : Ledger} (lst : List FileClass) {r : AllocRec}
    (node : Option (Nat × Nat)) (h : OnePage k l) (hk : k ≤ maxAlloc) (hnew : l.allocTrack k = [])
    (hlen : r.len = pageSize) (htype : r.type = countedType k) :
    OnePage (k + 1) (taken pageSize (phased l) lst r node) := by
  have hcurr := h.curr
  have hpage : r.len / pageSize = 1 := by rw [hlen, Nat.div_self (by decide)]
  have hindex : (l.curr + 1).toNat = k := by omega
  have hsmall : k ≤ 60000 := hk
  have hfields : ∀ node', OnePage (k + 1) (paged (recorded (searched (counted (phased l)) lst) r)
      r.type (r.len / pageSize)) → OnePage (k + 1) (taken pageSize (phased l) lst r node') := by
    intro node' ho
    cases node' <;> exact ⟨ho.curr, ho.typeCnt, ho.total, ho.anon, ho.records⟩
  apply hfields
  refine ⟨?_, ?_, ?_, ?_, ?_⟩
  · simp only [paged, recorded, searched, counted, phased]
    omega
  · simp only [paged, recorded, searched, counted, phased, h.typeCnt]
  · simp only [paged, recorded, searched, counted, phased, h.total, hpage, wrap]
    omega
  · have hnext := anon_next k
    simp only [paged, recorded, searched, counted, phased, h.anon, hpage, htype, wrap]
    rw [Nat.add_sub_cancel, ← hnext]
    split
    · omega
    · rfl
  · intro i hi
    simp only [paged, recorded, searched, counted, phased, hindex, hnew, List.nil_append]
    by_cases hik : i = k
    · subst hik
      exact ⟨r, Function.update_self _ _ _, hlen, htype⟩
    · rw [Function.update_of_ne hik]
      exact h.records i (by omega)

/-- A budget of one page cuts every class to one page. -/
theorem clip_page {size : Nat} (hpos : 0 < size) (hdvd : pageSize ∣ size) :
    clip pageSize size = pageSize := by
  have hle : pageSize ≤ size := Nat.le_of_dvd hpos hdvd
  by_cases hlt : pageSize < size
  · rw [clip, if_pos ⟨by decide, hlt⟩]
  · rw [clip, if_neg fun h => hlt h.2]
    exact Nat.le_antisymm (Nat.le_of_not_lt hlt) hle

theorem GrantedFor.one_page {pc : Pc} {lst : List FileClass} {type : MemType} {len : Nat}
    {node : Option (Nat × Nat)} (hs : Settled table ⟨b, pc⟩) (ht : PageTable table)
    (hbyte : b.maxAllocPerPhaseByte = pageSize) (h : Granted b lst type len node) :
    len = pageSize := by
  obtain ⟨c, hc, hlen⟩ := h.class
  obtain ⟨d, hd, hsize⟩ := hs.class hc
  obtain ⟨hpos, hdvd⟩ := ht d hd
  rw [hsize] at hpos hdvd
  rw [hlen, hbyte, clip_page hpos hdvd]

/-- The only request of a trace line is refused, or it takes the page. -/
theorem RequestFor.one_page {pc : Pc} {typ : MemType} {cnt : Nat} {led : Ledger}
    (hs : Settled table ⟨b, pc⟩) (ht : PageTable table)
    (hbyte : b.maxAllocPerPhaseByte = pageSize) (hprec : b.allocPrecision = true)
    (h : Request pageSize b (-1) 1 typ cnt led) :
    (∃ lst, led = refusal b.toLedger lst) ∨
      ∃ lst r node, led = taken pageSize b.toLedger lst r node ∧ r.len = pageSize ∧
        r.type = countedType b.typeCnt ∧ typ ≠ .typeMax ∧ cnt = 0 := by
  cases h with
  | @refused lst => exact .inl ⟨lst, rfl⟩
  | @served lst r node chosen granted _ _ _ =>
    have hlen := granted.one_page hs ht hbyte
    have hne := chosen.ne_typeMax
    refine .inr ⟨lst, r, node, rfl, hlen, ?_, hne, ?_⟩
    · simpa [Chosen] using chosen
    · rw [hprec, countdown_precise, hlen, Nat.div_self (by decide)]

section run

variable {opts : List Opt} {mem : Nat → UInt8} {gen : γ}

/-- The books of the phase of a line. -/
def nextPage (b : Book) (rest : List Char) (t : ℚ) (rows : List Row) : Book :=
  opened (called (limited (relined b rest 1 t) rows)) 1

theorem nextPage_byte (b : Book) (rest : List Char) (t : ℚ) (rows : List Row) :
    (nextPage b rest t rows).maxAllocPerPhaseByte = pageSize := by
  simp [nextPage, opened, called, limited, relined, wrap, pageSize]

variable (hw : Willing w) (hps : w.pageSize = pageSize) (ht : PageTable table)
  (hsmooth : ∀ m, Smooth w (run w table opts mem gen m))

include hw hsmooth in
/-- A line begins a phase with one request. -/
theorem Traced.enter {m : Nat} (hpc : (run w table opts mem gen m).pc = .main)
    (h : Traced limit n k (run w table opts mem gen m).st.toBook) (hk : k < n)
    (hn : n ≤ maxAlloc) (hlim : n < limit) :
    ∃ rest t rows g i, Lines true (n - (k + 1)) rest ∧
      (run w table opts mem gen (m + 1)).pc = .trans t g ⟨1, i, -1⟩ ∧
      (run w table opts mem gen (m + 1)).st.toBook =
        nextPage (run w table opts mem gen m).st.toBook rest t rows := by
  have hcurr := h.pages.curr
  have hlines := h.lines
  rw [show n - k = (n - (k + 1)) + 1 by omega] at hlines
  obtain ⟨line, rest, p, hg, hp, hrest⟩ := hlines
  have hone := parseLine_trace hp
  have hm := (run_turned w table opts mem gen m).move
  rw [hpc] at hm
  have hp' : parseLine (run w table opts mem gen m).st.ipfvt line = some (1, p.2) := by
    rw [h.trace, hp, ← hone]
  have hint : (run w table opts mem gen m).st.curJob + 1 < 2 ^ 31 := by
    rw [h.curJob]
    exact lt_of_le_of_lt (hk.trans_le hn) (by decide)
  have hphase : (run w table opts mem gen m).st.curJob + 1 < (run w table opts mem gen m).st.maxPhase := by
    rw [h.curJob, h.phases]
    omega
  have hlimit : wrap ((run w table opts mem gen m).st.fileCnt + (run w table opts mem gen m).st.anonCnt) ≤
      (run w table opts mem gen m).st.maxLimit := by
    have hle := (hsmooth m).limit
    simp only [wrap]
    omega
  obtain ⟨rows, ⟨i, hbook, htrans⟩ | ⟨_, hbook, _⟩⟩ :=
    hm.of_line hw h.vector hg hp' hint hphase h.nomore hlimit (by omega)
  · exact ⟨rest, p.2, rows, _, i, hrest, htrans, hbook⟩
  · have hskip := (hsmooth (m + 1)).skipped
    rw [hbook] at hskip
    simp [passedOver, called] at hskip

/-- The books once the page of a line was taken. -/
def pageTaken (b : Book) (lst : List FileClass) (r : AllocRec) (node : Option (Nat × Nat)) : Book :=
  withLedger b (taken pageSize b.toLedger lst r node)

include hw hps ht hsmooth in
/-- The request of a line takes one page of the type the counter asks for. -/
theorem Traced.serve {m : Nat} {t : ℚ} {g : Granularity} {i : Nat} {rest : List Char}
    {rows : List Row} {b : Book} (hpc : (run w table opts mem gen m).pc = .trans t g ⟨1, i, -1⟩)
    (hbook : (run w table opts mem gen m).st.toBook = nextPage b rest t rows)
    (h : OnePage k b.toLedger) (htr : Tracked b.toLedger) (hk : k < maxAlloc) :
    ∃ lst r node l, (r.len = pageSize ∧ r.type = countedType k) ∧
      (l.cnt = 0 ∧ (run w table opts mem gen (m + 1)).pc = .trans t g l) ∧
      (run w table opts mem gen (m + 1)).st.toBook = pageTaken (nextPage b rest t rows) lst r node ∧
      InTracker (run w table opts mem gen (m + 1)).st.toBook ∧
      Sized w (run w table opts mem gen (m + 1)).st.toBook := by
  have hcurr := h.curr
  have hsmall : k < 60000 := hk
  have hset := run_settled w table opts mem gen m
  have hin : InTracker (nextPage b rest t rows) := by
    simp only [InTracker, nextPage, opened, called, limited, relined]
    omega
  have hnew : current (nextPage b rest t rows) = [] := by
    have htr' : Tracked (called (limited (relined b rest 1 t) rows)).toLedger := htr
    exact htr'.opened 1
  have hcnt : (nextPage b rest t rows).typeCnt = k := h.typeCnt
  have hm := (run_turned w table opts mem gen m).move
  rw [view, hbook] at hset
  rw [hpc, hbook] at hm
  have hreq : ∀ typ cnt led, Request w.pageSize (nextPage b rest t rows) (-1) 1 typ cnt led →
      InTracker (withLedger (nextPage b rest t rows) led) ∧
        Sized w (withLedger (nextPage b rest t rows) led) := by
    intro typ cnt led hreq
    have hcur : (withLedger (nextPage b rest t rows) led).curr = (nextPage b rest t rows).curr :=
      hreq.curr
    refine ⟨by rw [InTracker, hcur]; exact hin, hps, hset.access, ?_⟩
    rw [hps] at hreq
    obtain ⟨lst, rfl⟩ | ⟨lst, r, node, rfl, hlen, _⟩ :=
      hreq.one_page hset ht (nextPage_byte b rest t rows) rfl
    · change ∀ r ∈ current (nextPage b rest t rows), _
      simp [hnew]
    · rw [current_taken, hnew]
      simp [hlen, pageSize]
  obtain ⟨typ, cnt, led, hserved, hnext, htrans⟩ := hm.of_request hw (by simp) hin
    (by rw [hnew]; decide) (by rw [hcnt]; omega) hreq
  have hafter := hreq typ cnt led hserved
  rw [← hnext] at hafter
  rw [hps] at hserved
  obtain ⟨lst, rfl⟩ | ⟨lst, r, node, rfl, hlen, htype, hne, rfl⟩ :=
    hserved.one_page hset ht (nextPage_byte b rest t rows) rfl
  · have hrefused := (hsmooth (m + 1)).refused
    rw [hnext] at hrefused
    simp [refusal, denied, withLedger] at hrefused
  · refine ⟨lst, r, node, _, ⟨hlen, hcnt ▸ htype⟩, ⟨?_, htrans⟩, hnext, hafter⟩
    rw [nextLocals, if_neg hne]

include hw hps ht hsmooth in
/-- One line of the trace gives one phase of one page. -/
theorem Traced.next {m : Nat} (hpc : (run w table opts mem gen m).pc = .main)
    (h : Traced limit n k (run w table opts mem gen m).st.toBook) (hk : k < n)
    (hn : n ≤ maxAlloc) (hlim : n < limit) :
    ∃ m', (run w table opts mem gen m').pc = .main ∧
      Traced limit n (k + 1) (run w table opts mem gen m').st.toBook := by
  have htr := run_tracked w table opts mem gen m
  obtain ⟨rest, t, rows, g, i, hrest, htrans, hbook⟩ := h.enter hw hsmooth hpc hk hn hlim
  obtain ⟨lst, r, node, l, ⟨hlen, htype⟩, ⟨hdone, htrans'⟩, hbook', hin, hs⟩ :=
    Traced.serve hw hps ht hsmooth htrans hbook h.pages htr (Nat.lt_of_lt_of_le hk hn)
  have hok := run_ok w table opts mem gen (m + 1 + 1)
  have hclock : ∀ n i, (step w (run w table opts mem gen (m + 1 + 1))).pc =
      .hold ⟨t, g, cpuTime w g n, 0, i, 0⟩ → ∃ last, ∀ k, last ≤ k → t ≤ cpuTime w g k - cpuTime w g n := by
    intro n i hhold
    rw [← run_succ] at hhold
    obtain ⟨last, hlast⟩ := (hsmooth (m + 1 + 1 + 1)).clock _ hhold
    simp only [zero_add] at hlast
    exact ⟨last, hlast⟩
  obtain ⟨j, hmain, hheld⟩ := phase_ends hw hok htrans' hdone hin hs hclock
  rw [← run_add] at hmain hheld
  refine ⟨_, hmain, ?_⟩
  rw [hheld, hbook']
  have hnew : (run w table opts mem gen m).st.allocTrack k = [] := by
    have hcurr := h.pages.curr
    exact htr.above k (by omega)
  have hpages := h.pages.served lst node (by omega) hnew hlen htype
  refine ⟨h.vector, h.trace, hrest, h.phases, ?_, ?_, hpages⟩
  · have hlimit := (hsmooth m).limit
    change ((run w table opts mem gen m).st.allocNomore || decide ((run w table opts mem gen m).st.maxLimit <
      wrap ((run w table opts mem gen m).st.fileCnt + (run w table opts mem gen m).st.anonCnt))) = false
    rw [h.nomore, Bool.false_or, decide_eq_false_iff_not]
    simp only [wrap]
    omega
  · exact congrArg (· + 1) h.curJob

include hw hps ht hsmooth in
theorem traced_all {m : Nat} (hpc : (run w table opts mem gen m).pc = .main)
    (h : Traced limit n 0 (run w table opts mem gen m).st.toBook) (hn : n ≤ maxAlloc)
    (hlim : n < limit) (k : Nat) (hk : k ≤ n) :
    ∃ m', (run w table opts mem gen m').pc = .main ∧
      Traced limit n k (run w table opts mem gen m').st.toBook := by
  induction k with
  | zero => exact ⟨m, hpc, h⟩
  | succ k ih =>
    obtain ⟨m', hpc', h'⟩ := ih (Nat.le_of_lt hk)
    exact Traced.next hw hps ht hsmooth hpc' h' hk hn hlim

/-- Once the options are read, no line is. -/
theorem traced_start {bytes : List Char} (hmode : TraceMode opts bytes)
    (hlines : Lines true n bytes) (hmain : (run w table opts mem gen 1).pc = .main) :
    Traced (opts.foldl phasesSet maxAlloc) n 0 (run w table opts mem gen 1).st.toBook := by
  have hm : Move w ⟨(initial table mem gen).toBook, .boot opts⟩ (view (run w table opts mem gen 1)) :=
    (run_turned w table opts mem gen 0).move
  rw [view, hmain] at hm
  obtain ⟨hvector, htrace⟩ := hmode
  generalize (run w table opts mem gen 1).st.toBook = b at hm ⊢
  cases hm with
  | idle hi => cases hi
  | boot configured ledger _ started =>
    obtain ⟨⟨hphases, hset, htset, _⟩, _⟩ := started rfl
    have hv := hset.trans hvector
    rw [Prod.mk.injEq] at hv
    have hledger : b.toLedger = emptyLedger table := ledger
    refine ⟨hv.1, htset.trans htrace, hv.2 ▸ hlines, hphases, configured.nomore, configured.curJob, ?_⟩
    rw [hledger]
    exact ⟨rfl, rfl, rfl, rfl, fun i hi => absurd hi (Nat.not_lt_zero i)⟩

end run

/-- A trace of `n` lines gives `n` phases of one page, every fourth after the
first of which is anonymous. -/
theorem trace_one_page_per_line (w : World γ) (hw : Willing w) (hps : w.pageSize = 4096)
    (table : FileTable) (ht : PageTable table) (opts : List Opt) (mem : Nat → UInt8) (gen : γ)
    (n : Nat) (bytes : List Char) (hmode : TraceMode opts bytes) (hlines : Lines true n bytes)
    (hn : n ≤ maxAlloc) (hlimit : n < opts.foldl phasesSet maxAlloc)
    (hmain : (run w table opts mem gen 1).pc = .main)
    (hsmooth : ∀ m, Smooth w (run w table opts mem gen m)) :
    ∃ m, (run w table opts mem gen m).pc = .stopped .returned ∧
      let s := (run w table opts mem gen m).st
      s.curr + 1 = n ∧
      (∀ k, k < n → ∃ r, s.allocTrack k = [r] ∧ r.len = 4096 ∧
        r.type = if 0 < k ∧ k % 4 = 0 then .anon else .file) ∧
      s.totalAllocPages = n ∧ (1 ≤ n → s.anonCnt = (n - 1) / 4) := by
  have hstart := traced_start hmode hlines hmain
  obtain ⟨m, hpc, h⟩ := traced_all hw hps ht hsmooth hmain hstart hn hlimit n (Nat.le_refl n)
  have hm := (run_turned w table opts mem gen m).move
  have hend := h.lines
  rw [hpc] at hm
  rw [Nat.sub_self] at hend
  obtain ⟨hbook, hstop⟩ := hm.of_end h.vector hend
  have hpages := h.pages
  rw [← hbook] at hpages
  refine ⟨m + 1, hstop, hpages.curr, ?_, hpages.total, fun _ => hpages.anon⟩
  intro k hk
  obtain ⟨r, htrack, hlen, htype⟩ := hpages.records k hk
  exact ⟨r, htrack, hlen, htype.trans (countedType_eq k)⟩

/-- A trace of five lines that ask for no time. -/
def fiveLines : List Char := (List.replicate 5 ['0', '\t', '0', '\n']).flatten

/-- The run on this trace. -/
def fiveRun (m : Nat) : Machine Unit :=
  run calmWorld smallTable [.V (some fiveLines), .I] (fun _ => 0) () m

/-- A holding state that needs no time. -/
def untimed : Pc → Bool
  | .hold l => l.execTime = 0 && l.run = 0 && l.now = 0
  | _ => true

theorem fiveLines_lines : Lines true 5 fiveLines := by
  have hline : parseLine true ['0', '\t', '0', '\n'] = some (1, 0) := by decide +kernel
  exact ⟨_, _, _, rfl, hline, _, _, _, rfl, hline, _, _, _, rfl, hline, _, _, _, rfl, hline,
    _, _, _, rfl, hline, rfl⟩

theorem fiveRun_stopped : halted (fiveRun 22).pc = some .returned := by
  decide +kernel

theorem fiveRun_checks : ∀ m, m < 23 → (fiveRun m).st.refused = 0 ∧
    (fiveRun m).st.fileCnt + (fiveRun m).st.anonCnt ≤ (fiveRun m).st.maxLimit ∧
    (fiveRun m).st.skipped = 0 ∧ untimed (fiveRun m).pc = true := by
  decide +kernel

theorem fiveRun_smooth (m : Nat) : Smooth calmWorld (fiveRun m) := by
  have hall : ∀ k, k < 23 → Smooth calmWorld (fiveRun k) := by
    intro k hk
    obtain ⟨hrefused, hlimit, hskipped, huntimed⟩ := fiveRun_checks k hk
    refine ⟨hrefused, hlimit, hskipped, fun l hl => ⟨0, fun i _ => ?_⟩⟩
    simp only [hl, untimed, Bool.and_eq_true, decide_eq_true_eq] at huntimed
    rw [huntimed.1.1, huntimed.1.2, huntimed.2, zero_add, sub_zero]
    exact Nat.cast_nonneg _
  by_cases hm : m < 23
  · exact hall m hm
  · have hstop : fiveRun m = fiveRun 22 := run_halted fiveRun_stopped (by omega)
    rw [hstop]
    exact hall 22 (by decide)

theorem trace_one_page_per_line_five :
    ∃ m, (fiveRun m).pc = .stopped .returned ∧
      let s := (fiveRun m).st
      s.curr + 1 = (5 : Nat) ∧
      (∀ k, k < 5 → ∃ r, s.allocTrack k = [r] ∧ r.len = 4096 ∧
        r.type = if 0 < k ∧ k % 4 = 0 then .anon else .file) ∧
      s.totalAllocPages = 5 ∧ (1 ≤ 5 → s.anonCnt = (5 - 1) / 4) := by
  have htable : PageTable smallTable := by simp [PageTable, smallTable, pageSize]
  exact trace_one_page_per_line calmWorld calmWorld_willing rfl smallTable htable
    [.V (some fiveLines), .I] (fun _ => 0) () 5 fiveLines ⟨rfl, rfl⟩ fiveLines_lines (by decide)
    (by decide) rfl fiveRun_smooth

end Gobbler.Proofs
