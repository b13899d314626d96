import Gobbler.Proofs.Localities
import Gobbler.Proofs.Reader

namespace Gobbler.Proofs

variable {γ : Type} {w : World γ} {table : FileTable} {opts : List Opt} {mem : Nat → UInt8}
  {gen : γ} {b : Book}

/-- Whether there is a `-I` among the options. -/
def traceOf (opts : List Opt) : Bool := opts.foldl traceSet false

/-- The value of the last `-e`, which is 0 when there is none. -/
def wcetOf (opts : List Opt) : Int := opts.foldl wcetSet 0

/-- The time of every locality without a vector. -/
def timeOf (opts : List Opt) : ℚ := if wcetOf opts ≠ 0 then (wcetOf opts : ℚ) else 55

/-- The times of the vector are plain whole numbers. -/
def PlainVector (opts : List Opt) : Prop :=
  ∀ line ∈ vectorLines (vectorOf opts).2, ∀ t ∈ timeToken (traceOf opts) line, PlainTime t

/-- The call of `job` has the count and the time of the line. -/
structure OfLine (isIpfvt : Bool) (line : List Char) (j : JobCall) : Prop where
  parsed : parseLine isIpfvt line = some (j.maxAllocPerPhase, j.execTime)
  bytes : j.maxAllocPerPhaseByte = wrap (j.maxAllocPerPhase * pageSize)

theorem OfLine.tokens {isIpfvt : Bool} {line : List Char} {j : JobCall} (h : OfLine isIpfvt line j) :
    allocCntOf isIpfvt line = some j.maxAllocPerPhase ∧
      ∃ t, timeToken isIpfvt line = some t ∧ j.execTime = atof t := by
  have hparsed := h.parsed
  rw [parseLine_eq, Option.bind_eq_some_iff] at hparsed
  obtain ⟨cnt, hcnt, hparsed⟩ := hparsed
  obtain ⟨t, ht, heq⟩ := Option.map_eq_some_iff.mp hparsed
  obtain ⟨rfl, htime⟩ := Prod.mk.inj heq
  exact ⟨hcnt, t, ht, htime.symm⟩

/-- The call of `job`, the first being call 0, follows its line of the vector, or
it has the time of the options. -/
def CallFollows (opts : List Opt) (i : Nat) (j : JobCall) : Prop :=
  if (vectorOf opts).1 = true then
    ∃ line, (vectorLines (vectorOf opts).2)[i]? = some line ∧ OfLine (traceOf opts) line j
  else j.execTime = timeOf opts

def CallsFollow (opts : List Opt) (jobs : List JobCall) : Prop :=
  ∀ i j, jobs.reverse[i]? = some j → CallFollows opts i j

/-- While the program runs its localities it has read one line for each call. -/
structure LineForCall (opts : List Opt) (b : Book) : Prop where
  vector : b.vector = (vectorOf opts).1
  trace : b.ipfvt = traceOf opts
  time : b.vector = false → b.wcetMs = timeOf opts
  lines : b.vector = true →
    vectorLines b.vectorStream = (vectorLines (vectorOf opts).2).drop b.jobs.length

structure VectorRead (opts : List Opt) (v : View) : Prop where
  booting : ∀ os, v.pc = .boot os → os = opts ∧ v.book.vector = false ∧ v.book.vectorStream = [] ∧
    v.book.ipfvt = false ∧ v.book.wcet = 0 ∧ v.book.jobs = []
  reading : halted v.pc = none → (∀ os, v.pc ≠ .boot os) → LineForCall opts v.book
  calls : CallsFollow opts v.book.jobs

theorem CallsFollow.nil (opts : List Opt) : CallsFollow opts [] := by
  intro i j h
  simp at h

theorem CallsFollow.cons {jobs : List JobCall} (h : CallsFollow opts jobs) {j : JobCall}
    (hj : CallFollows opts jobs.length j) : CallsFollow opts (j :: jobs) := by
  intro i j' hi
  rw [List.reverse_cons] at hi
  rcases Nat.lt_trichotomy i jobs.length with hlt | rfl | hgt
  · rw [List.getElem?_append_left (by simpa using hlt)] at hi
    exact h i j' hi
  · have hlast : (jobs.reverse ++ [j])[jobs.length]? = some j := by
      rw [← List.length_reverse, List.getElem?_concat_length]
    rw [hlast, Option.some.injEq] at hi
    exact hi ▸ hj
  · rw [List.getElem?_eq_none (by simp; omega)] at hi
    cases hi

/-- The next call has the next line. -/
theorem LineForCall.called {b' : Book} (h : LineForCall opts b) (hc : CallsFollow opts b.jobs)
    (hl : Located b b') : LineForCall opts (called b') ∧ CallsFollow opts (called b').jobs := by
  obtain ⟨rows, hvec | @⟨line, rest, cnt, t, hvec, hgot, hparse⟩⟩ := hl
  · have hopts : ¬(vectorOf opts).1 = true := by simp [← h.vector, hvec]
    refine ⟨⟨h.vector, h.trace, h.time, fun hv => absurd (hv.symm.trans hvec) Bool.noConfusion⟩, ?_⟩
    apply hc.cons
    rw [CallFollows, if_neg hopts]
    exact h.time hvec
  · have hopts : (vectorOf opts).1 = true := h.vector.symm.trans hvec
    have hlines := vectorLines_some hgot
    rw [h.lines hvec] at hlines
    have hnext : (vectorLines (vectorOf opts).2)[b.jobs.length]? = some line := by
      rw [← List.head?_drop, hlines]
      rfl
    refine ⟨⟨h.vector, h.trace, fun hv => absurd (hvec.symm.trans hv) Bool.noConfusion, fun _ => ?_⟩, ?_⟩
    · have hdrop := congrArg List.tail hlines
      rw [List.tail_drop] at hdrop
      exact hdrop.symm
    · apply hc.cons
      rw [CallFollows, if_pos hopts]
      exact ⟨line, hnext, h.trace ▸ hparse, rfl⟩

theorem VectorRead.move {v v' : View} (h : VectorRead opts v) (hm : Move w v v') : VectorRead opts v' := by
  have hboot := hm.booted
  have hold := h.calls
  have hrep := h.reading
  cases hm with
  | boot configured _ next started =>
    obtain ⟨rfl, hvec, hstream, htrace, hwcet, hjobs⟩ := h.booting _ rfl
    refine ⟨fun os hos => absurd hos (hboot os), fun hrun _ => ?_, ?_⟩
    · rcases next with rfl | ⟨x, rfl, _⟩
      · have hs := started rfl
        have hvector := hs.vector
        have htraced := hs.trace
        have htime := hs.time
        have hnone := configured.jobs.trans hjobs
        rw [hs.wcet] at htime
        simp only at hvec hstream htrace hwcet hvector htraced htime
        rw [hvec, hstream] at hvector
        rw [htrace] at htraced
        rw [hwcet] at htime
        refine ⟨congrArg Prod.fst hvector, htraced, fun _ => htime, fun _ => ?_⟩
        rw [hnone]
        exact congrArg (fun p : Bool × List Char => vectorLines p.2) hvector
      · cases hrun
    · rw [configured.jobs]
      exact hold
  | idle hi =>
    refine ⟨fun os hos => absurd hos (hboot os), fun hrun _ => ?_, ?_⟩
    · cases hi with
      | leave | hold | held =>
        obtain ⟨h1, h2, h3, h4⟩ := hrep rfl (by simp)
        exact ⟨h1, h2, h3, h4⟩
      | _ => cases hrun
    · cases hi <;> exact hold
  | finish located | overrun located =>
    refine ⟨fun os hos => absurd hos (hboot os), fun hrun _ => (by cases hrun), ?_⟩
    rw [located.jobs.1]
    exact hold
  | skip located | enter located =>
    obtain ⟨⟨h1, h2, h3, h4⟩, hcalls⟩ := (hrep rfl (by simp)).called hold located
    exact ⟨fun os hos => absurd hos (hboot os), fun _ _ => ⟨h1, h2, h3, h4⟩, hcalls⟩
  | enterHalt located =>
    obtain ⟨_, hcalls⟩ := (hrep rfl (by simp)).called hold located
    exact ⟨fun os hos => absurd hos (hboot os), fun hrun _ => (by cases hrun), hcalls⟩
  | request =>
    obtain ⟨h1, h2, h3, h4⟩ := hrep rfl (by simp)
    exact ⟨fun os hos => absurd hos (hboot os), fun _ _ => ⟨h1, h2, h3, h4⟩, hold⟩
  | trouble | aborted =>
    exact ⟨fun os hos => absurd hos (hboot os), fun hrun _ => (by cases hrun), hold⟩

theorem run_vectorRead (w : World γ) (table : FileTable) (opts : List Opt) (mem : Nat → UInt8)
    (gen : γ) (n : Nat) : VectorRead opts (view (run w table opts mem gen n)) := by
  refine run_invariant w table opts mem gen ?_ (fun _ _ _ _ h hm => h.move hm) n
  refine ⟨fun os hos => ?_, fun _ hnot => absurd rfl (hnot opts), .nil opts⟩
  cases hos
  exact ⟨rfl, rfl, rfl, rfl, rfl, rfl⟩

/-- A whole number of units that a `double` holds. -/
def Whole (t : ℚ) : Prop := ∃ e : ℤ, t = e ∧ e.natAbs < 2 ^ 53

theorem PlainTime.whole {s : List Char} (h : PlainTime s) : Whole (atof s) :=
  ⟨wholeValue s, atof_plain h, h.fits⟩

theorem timeOf_whole (h : (wcetOf opts).natAbs < 2 ^ 53) : Whole (timeOf opts) := by
  unfold timeOf
  split
  · exact ⟨wcetOf opts, rfl, h⟩
  · exact ⟨55, by simp, by decide⟩

theorem CallsFollow.whole {jobs : List JobCall} (h : CallsFollow opts jobs)
    (he : (wcetOf opts).natAbs < 2 ^ 53) (hplain : PlainVector opts) :
    ∀ j ∈ jobs, Whole j.execTime := by
  intro j hj
  obtain ⟨i, hi⟩ := List.getElem?_of_mem (List.mem_reverse.mpr hj)
  have hcall := h i j hi
  unfold CallFollows at hcall
  split at hcall
  · obtain ⟨line, hline, hof⟩ := hcall
    obtain ⟨_, t, ht, htime⟩ := hof.tokens
    rw [htime]
    exact (hplain line (List.mem_of_getElem? hline) t ht).whole
  · rw [hcall]
    exact timeOf_whole he

/-- The time for which the program runs its locality. -/
def localityTime : Pc → Option ℚ
  | .trans e _ _ => some e
  | .hold l => some l.execTime
  | _ => none

/-- The locality was asked for by a call of `job`. -/
def TimeAsked (v : View) : Prop := ∀ e, localityTime v.pc = some e → ∃ j ∈ v.book.jobs, j.execTime = e

theorem TimeAsked.move {v v' : View} (h : TimeAsked v) (hm : Move w v v') : TimeAsked v' := by
  intro e he
  cases hm with
  | boot _ _ next _ => rcases next with rfl | ⟨_, rfl, _⟩ <;> cases he
  | idle hi =>
    cases hi with
    | leave => exact h e he
    | hold num time => exact h e ((congrArg some time).symm.trans he)
    | _ => cases he
  | enter =>
    cases he
    exact ⟨_, List.mem_cons_self, rfl⟩
  | request => exact h e he
  | _ => cases he

/-- With plain whole times all localities run for whole times. -/
theorem run_whole (he : (wcetOf opts).natAbs < 2 ^ 53) (hplain : PlainVector opts) (n : Nat) {e : ℚ}
    (hpc : localityTime (run w table opts mem gen n).pc = some e) : Whole e := by
  have hasked : TimeAsked (view (run w table opts mem gen n)) :=
    run_invariant w table opts mem gen nofun (fun _ _ _ _ h hm => h.move hm) n
  obtain ⟨j, hj, rfl⟩ := hasked e hpc
  exact (run_vectorRead w table opts mem gen n).calls.whole he hplain j hj

/-- With a vector whose times are plain whole numbers the calls of `job` follow
its lines: the first call has the count and the time of the first line, and so on
without a gap. When `main` comes back, just these lines were read. -/
theorem calls_follow_vector (w : World γ) (table : FileTable) (opts : List Opt) (mem : Nat → UInt8)
    (gen : γ) (n : Nat) (hvec : (vectorOf opts).1 = true) (hplain : PlainVector opts) :
    let m := run w table opts mem gen n
    let lines := vectorLines (vectorOf opts).2
    (∀ (i : Nat) (j : JobCall), m.st.jobs.reverse[i]? = some j → ∃ line t, lines[i]? = some line ∧
        allocCntOf (traceOf opts) line = some j.maxAllocPerPhase ∧
        timeToken (traceOf opts) line = some t ∧ j.execTime = wholeValue t ∧
        j.maxAllocPerPhaseByte = wrap (j.maxAllocPerPhase * pageSize)) ∧
      (m.pc = .main → vectorLines m.st.vectorStream = lines.drop m.st.jobs.length) := by
  intro m lines
  have h := run_vectorRead w table opts mem gen n
  refine ⟨fun i j hj => ?_, fun hpc => ?_⟩
  · have hcall := h.calls i j hj
    rw [CallFollows, if_pos hvec] at hcall
    obtain ⟨line, hline, hof⟩ := hcall
    obtain ⟨hcnt, t, ht, htime⟩ := hof.tokens
    have hplainTime := hplain line (List.mem_of_getElem? hline) t ht
    exact ⟨line, t, hline, hcnt, ht, htime.trans (atof_plain hplainTime), hof.bytes⟩
  · have hrep := h.reading (by simp [view, m, hpc, halted]) (by simp [view, m, hpc])
    exact hrep.lines (hrep.vector.trans hvec)

theorem calls_follow_vector_two :
    let opts : List Opt := [.V (some "3,1\n2, 1\n".toList), .e 1, .t 0]
    let m := run plainWorld smallTable opts (fun _ => 0) () 12
    let lines := vectorLines (vectorOf opts).2
    (∀ (i : Nat) (j : JobCall), m.st.jobs.reverse[i]? = some j → ∃ line t, lines[i]? = some line ∧
        allocCntOf (traceOf opts) line = some j.maxAllocPerPhase ∧
        timeToken (traceOf opts) line = some t ∧ j.execTime = wholeValue t ∧
        j.maxAllocPerPhaseByte = wrap (j.maxAllocPerPhase * pageSize)) ∧
      (m.pc = .main → vectorLines m.st.vectorStream = lines.drop m.st.jobs.length) := by
  have hplain : PlainVector [.V (some "3,1\n2, 1\n".toList), .e 1, .t 0] := by
    have hlines : vectorLines "3,1\n2, 1\n".toList = ["3,1\n".toList, "2, 1\n".toList] := by decide
    intro line hline t ht
    change line ∈ vectorLines "3,1\n2, 1\n".toList at hline
    rw [hlines] at hline
    simp only [List.mem_cons, List.not_mem_nil, or_false] at hline
    rcases hline with rfl | rfl <;> cases ht
    · exact ⟨by decide, by decide, by decide⟩
    · exact ⟨by decide, by decide, by decide⟩
  exact calls_follow_vector plainWorld smallTable _ (fun _ => 0) () 12 rfl hplain

end Gobbler.Proofs
