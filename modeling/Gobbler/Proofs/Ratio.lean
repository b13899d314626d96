import Gobbler.Proofs.Tally

namespace Gobbler.Proofs

variable {γ : Type} {w : World γ} {table : FileTable} {ps : Nat} {b : Book} {x : Option Halt}
  {l : Ledger}

def fileCount (l : Ledger) : Nat := (recordsOf .file l).length

def anonCount (l : Ledger) : Nat := (recordsOf .anon l).length

theorem counts_congr {l l' : Ledger} (h : allRecords l' = allRecords l) :
    fileCount l' = fileCount l ∧ anonCount l' = anonCount l := by
  simp only [fileCount, anonCount, recordsOf, h, and_self]

theorem counts_append {l l' : Ledger} {r : AllocRec} (h : allRecords l' = allRecords l ++ [r]) :
    (r.type = .file → fileCount l' = fileCount l + 1 ∧ anonCount l' = anonCount l) ∧
      (r.type = .anon → fileCount l' = fileCount l ∧ anonCount l' = anonCount l + 1) := by
  constructor <;> intro ht <;> simp [fileCount, anonCount, recordsOf, h, ht]

/-- What the request counter keeps in precision mode. -/
def Precise (l : Ledger) : Prop := anonCount l = (fileCount l + anonCount l - 1) / 4

/-- What a transition without a precise budget keeps at the head of its loop:
the anonymous slice it still has is paid for by the requests to come. -/
structure Slice (l : Ledger) (t : TransLocals) : Prop where
  slice : 0 ≤ t.anonSlice
  cnt : t.cnt ≤ 18
  paid : 3 * (anonCount l : Int) + 4 * t.anonSlice ≤ fileCount l + t.cnt

/-- The file and the anonymous records made so far, while no request was refused. -/
structure Ratio (v : View) : Prop where
  counted : halted v.pc = none →
    v.book.typeCnt = fileCount v.book.toLedger + anonCount v.book.toLedger
  precise : v.book.allocPrecision = true → Precise v.book.toLedger
  negative : ∀ e t l, v.pc = .trans e t l → v.book.allocPrecision = true → l.anonSlice < 0
  slice : ∀ e t l, v.pc = .trans e t l → v.book.allocPrecision = false → Slice v.book.toLedger l
  rest : v.book.allocPrecision = false → halted v.pc = none → (∀ e t l, v.pc ≠ .trans e t l) →
    3 * anonCount v.book.toLedger ≤ fileCount v.book.toLedger

/-- The request counter keeps three files for each anonymous record. -/
theorem Precise.taken {l l' : Ledger} {r : AllocRec} (h : Precise l)
    (hcnt : l.typeCnt = fileCount l + anonCount l) (ht : r.type = countedType l.typeCnt)
    (happ : allRecords l' = allRecords l ++ [r]) : Precise l' := by
  obtain ⟨hfile, hanon⟩ := counts_append happ
  unfold Precise at h ⊢
  unfold countedType at ht
  split at ht
  · rename_i hk
    obtain ⟨h1, h2⟩ := hanon ht
    simp only [fileRatio] at hk
    omega
  · rename_i hk
    obtain ⟨h1, h2⟩ := hfile ht
    simp only [fileRatio] at hk
    omega

/-- A served request uses up a unit of the slice or pays for one. -/
theorem Slice.taken {l l' : Ledger} {t : TransLocals} {r : AllocRec} {typeCnt : Nat}
    (h : Slice l t) (more : t.cnt ≠ 0) (ht : Chosen typeCnt t.anonSlice r.type)
    (happ : allRecords l' = allRecords l ++ [r]) :
    Slice l' (nextLocals t r.type (wrapSub t.cnt 1)) := by
  obtain ⟨hfile, hanon⟩ := counts_append happ
  have hslice := h.slice
  have hcnt := h.cnt
  have hpaid := h.paid
  have hw : wrapSub t.cnt 1 = t.cnt - 1 := by
    simp only [wrapSub]
    omega
  rcases ht.cases with htype | htype
  · obtain ⟨h1, h2⟩ := hfile htype
    refine ⟨?_, ?_, ?_⟩ <;> simp only [nextLocals, htype, reduceCtorEq, if_false, hw, h1, h2] <;> omega
  · obtain ⟨h1, h2⟩ := hanon htype
    have hpos : t.anonSlice ≠ 0 := by
      intro hz
      simp [Chosen, hz, htype] at ht
    refine ⟨?_, ?_, ?_⟩ <;>
      simp only [nextLocals, htype, reduceCtorEq, if_false, if_true, hw, h1, h2] <;> omega

/-- A move that leaves the ledger and the mode alone, and is not in a transition. -/
theorem Ratio.same {b b' : Book} {pc pc' : Pc} (h : Ratio ⟨b, pc⟩) (hl : b'.toLedger = b.toLedger)
    (hp : b'.allocPrecision = b.allocPrecision)
    (hrun : halted pc' = none → halted pc = none) (htrans : ∀ e t l, pc' ≠ .trans e t l)
    (hrest : halted pc' = none → b.allocPrecision = false →
      3 * anonCount b.toLedger ≤ fileCount b.toLedger) : Ratio ⟨b', pc'⟩ := by
  have hcnt : b'.typeCnt = b.typeCnt := congrArg Ledger.typeCnt hl
  refine ⟨?_, ?_, fun e t l ht => absurd ht (htrans e t l), fun e t l ht => absurd ht (htrans e t l), ?_⟩
  · intro hr
    rw [hcnt, hl]
    exact h.counted (hrun hr)
  · intro hpre
    rw [hl]
    exact h.precise (hp ▸ hpre)
  · intro hpre hr _
    rw [hl]
    exact hrest hr (hp ▸ hpre)

theorem Ratio.rested {b : Book} {pc : Pc} (h : Ratio ⟨b, pc⟩) (hrun : halted pc = none)
    (htrans : ∀ e t l, pc ≠ .trans e t l) (hp : b.allocPrecision = false) :
    3 * anonCount b.toLedger ≤ fileCount b.toLedger := h.rest hp hrun htrans

theorem Precise.of_zero {l : Ledger} (h : fileCount l + anonCount l = 0) : Precise l := by
  unfold Precise
  omega

/-- Reading a vector line turns the precision on before the first request. -/
theorem Ratio.located {b b' : Book} (h : Ratio ⟨b, .main⟩) (hu : Unread table ⟨b, .main⟩)
    (hl : Located b b') : Ratio ⟨b', .main⟩ := by
  have hrest := h.rested rfl fun _ _ _ => by simp
  obtain ⟨rows, hvec | ⟨hvec, _, _⟩⟩ := hl
  · exact h.same rfl rfl id (by simp) fun _ => hrest
  · refine ⟨h.counted, fun _ => ?_, by simp, by simp, fun hp => absurd hp Bool.noConfusion⟩
    cases hp : b.allocPrecision with
    | true => exact h.precise hp
    | false =>
      have hl : b.toLedger = emptyLedger table := (hu.fresh hvec hp).1
      change Precise b.toLedger
      rw [hl]
      exact .of_zero rfl

theorem Ratio.enter {b : Book} {cnt i : Nat} {anonSlice : Int} (h : Ratio ⟨b, .main⟩)
    (ht : Tracked b.toLedger) (hs : Start (called b) cnt anonSlice) :
    Ratio ⟨opened (called b) cnt, .trans b.wcetMs b.timeG ⟨cnt, i, anonSlice⟩⟩ := by
  have hrest := h.rested rfl fun _ _ _ => by simp
  obtain ⟨hf, ha⟩ := counts_congr (allRecords_phased ht)
  have hl : (opened (called b) cnt).toLedger = phased b.toLedger := rfl
  refine ⟨?_, ?_, ?_, ?_, fun _ _ hn => absurd rfl (hn _ _ _)⟩
  · intro _
    rw [hl, hf, ha]
    exact h.counted rfl
  · intro hp
    rw [hl, Precise, hf, ha]
    exact h.precise hp
  · intro e t l hpc hp
    cases hpc
    cases hs with
    | precise _ => exact Int.negSucc_lt_zero 0
    | drawn hp' _ _ => exact absurd (hp'.symm.trans hp) Bool.noConfusion
  · intro e t l hpc hp
    cases hpc
    cases hs with
    | precise hp' => exact absurd (hp'.symm.trans hp) Bool.noConfusion
    | drawn _ low high =>
      have hle := hrest hp
      refine ⟨Int.natCast_nonneg _, high, ?_⟩
      rw [hl, hf, ha]
      simp only [fileRatio]
      omega

theorem Ratio.request {b : Book} {e : ℚ} {t : Granularity} {l : TransLocals} {typ : MemType}
    {cnt : Nat} {led : Ledger} (h : Ratio ⟨b, .trans e t l⟩) (more : l.cnt ≠ 0)
    (hreq : Request ps b l.anonSlice l.cnt typ cnt led) (hr : led.refused = 0) :
    Ratio ⟨withLedger b led, .trans e t (nextLocals l typ cnt)⟩ := by
  have hcnt := h.counted rfl
  have hneg := h.negative e t l rfl
  have hslice := h.slice e t l rfl
  cases hreq with
  | refused =>
    simp [refusal, denied] at hr
  | @served lst r node chosen granted _ track _ =>
    have happ : allRecords (taken ps b.toLedger lst r node) = allRecords b.toLedger ++ [r] :=
      allRecords_taken track.1
    have htype : (taken ps b.toLedger lst r node).typeCnt = b.typeCnt + 1 := by
      cases node <;> rfl
    have hsum : fileCount (taken ps b.toLedger lst r node) +
        anonCount (taken ps b.toLedger lst r node) = fileCount b.toLedger + anonCount b.toLedger + 1 := by
      obtain ⟨hfile, hanon⟩ := counts_append happ
      rcases chosen.cases with hc | hc
      · have := hfile hc
        omega
      · have := hanon hc
        omega
    have hne := chosen.ne_typeMax
    refine ⟨fun _ => ?_, fun hp => ?_, ?_, ?_, fun _ _ hn => absurd rfl (hn _ _ _)⟩
    · exact htype.trans (hcnt ▸ hsum.symm)
    · refine (h.precise hp).taken hcnt ?_ happ
      have hch := chosen
      rwa [Chosen, if_pos (hneg hp)] at hch
    · intro e' t' l' hpc hp
      cases hpc
      have hlt := hneg hp
      simp only [nextLocals, if_neg hne]
      split <;> omega
    · intro e' t' l' hpc hp
      cases hpc
      have hp' : b.allocPrecision = false := hp
      have hcount : countdown b.allocPrecision l.cnt (r.len / ps) = wrapSub l.cnt 1 := by
        simp [countdown, hp']
      rw [hcount]
      exact (hslice hp).taken more chosen happ

/-- A transition at the end of its loop has paid for its whole slice. -/
theorem Ratio.done {b : Book} {e : ℚ} {t : Granularity} {l : TransLocals}
    (h : Ratio ⟨b, .trans e t l⟩) (hd : l.cnt = 0) (hp : b.allocPrecision = false) :
    3 * anonCount b.toLedger ≤ fileCount b.toLedger := by
  have hslice : Slice b.toLedger l := h.slice e t l rfl hp
  have hnonneg := hslice.slice
  have hpaid := hslice.paid
  omega

theorem Ratio.idle {b b' : Book} {pc pc' : Pc} (h : Ratio ⟨b, pc⟩) (hi : Idle w b pc b' pc') :
    Ratio ⟨b', pc'⟩ := by
  cases hi with
  | ended | unread | leaveHalt | holdHalt =>
    exact h.same rfl rfl (by simp [halted]) (by simp) (by simp [halted])
  | leave done _ => exact h.same rfl rfl (fun _ => rfl) (by simp) fun _ => h.done done
  | hold num time => exact h.same rfl rfl id (by simp) fun _ => h.rested rfl (by simp)
  | held => exact h.same rfl rfl (fun _ => rfl) (by simp) fun _ => h.rested rfl (by simp)
  | stopped => exact h

theorem Ratio.boot {b : Book} {pc : Pc} (hl : b.toLedger = emptyLedger table)
    (next : pc = .main ∨ ∃ h, pc = .stopped h ∧ BootHalt h) : Ratio ⟨b, pc⟩ := by
  have hpc : ∀ e t l, pc ≠ .trans e t l := by
    rcases next with rfl | ⟨_, rfl, _⟩ <;> simp
  have hcnt : b.typeCnt = fileCount b.toLedger + anonCount b.toLedger := by
    rw [hl]
    rfl
  refine ⟨fun _ => hcnt, fun _ => ?_, fun e t l ht => absurd ht (hpc e t l),
    fun e t l ht => absurd ht (hpc e t l), fun _ _ _ => ?_⟩
  · change Precise b.toLedger
    rw [hl]
    exact .of_zero rfl
  · change 3 * anonCount b.toLedger ≤ fileCount b.toLedger
    rw [hl]
    exact Nat.le_refl _

theorem Ratio.aborted {b : Book} {e : ℚ} {t : Granularity} {l : TransLocals} {h : Halt}
    {led : Ledger} (hr : Ratio ⟨b, .trans e t l⟩) (hrec : allRecords led = allRecords b.toLedger) :
    Ratio ⟨withLedger b led, .stopped h⟩ := by
  obtain ⟨hf, ha⟩ := counts_congr hrec
  refine ⟨by simp [halted], fun hp => ?_, by simp, by simp, fun _ hn => by simp [halted] at hn⟩
  change Precise led
  rw [Precise, hf, ha]
  exact hr.precise hp

theorem Ratio.move {v v' : View} (h : Ratio v) (ht : Tracked v.book.toLedger)
    (hu : Unread table v) (hr : v'.book.refused = 0) (hm : Move w v v') : Ratio v' := by
  have hstop : ∀ {b b' : Book} {x : Halt}, Ratio ⟨b, .main⟩ → b'.toLedger = b.toLedger →
      b'.allocPrecision = b.allocPrecision → Ratio ⟨b', .stopped x⟩ :=
    fun h hl hp => h.same hl hp (by simp [halted]) (by simp) (by simp [halted])
  cases hm with
  | boot _ ledger next => exact .boot (ledger.trans (hu.booting _ rfl).1) next
  | idle hi => exact h.idle hi
  | finish located _ | overrun located _ => exact hstop (h.located hu located) rfl rfl
  | skip located _ =>
    have hl := h.located hu located
    exact hl.same rfl rfl id (by simp) fun _ => hl.rested rfl (by simp)
  | enter located _ _ start =>
    exact (h.located hu located).enter (located.ledger ▸ ht) start
  | enterHalt located _ _ => exact hstop (h.located hu located) rfl rfl
  | request more request => exact h.request more request hr
  | trouble more request _ _ =>
    exact (h.request more request hr).same rfl rfl (by simp [halted]) (by simp) (by simp [halted])
  | aborted _ aborted =>
    refine h.aborted ?_
    cases aborted with
    | early => rfl
    | full => rfl

theorem run_ratio (w : World γ) (table : FileTable) (opts : List Opt) (mem : Nat → UInt8)
    (gen : γ) (n : Nat) (hr : (run w table opts mem gen n).st.refused = 0) :
    Ratio (view (run w table opts mem gen n)) := by
  refine (run_invariant w table opts mem gen (I := fun v =>
    (Tracked v.book.toLedger ∧ Unread table v) ∧ (v.book.refused = 0 → Ratio v)) ?_ ?_ n).2 hr
  · refine ⟨⟨booted_tracked table opts mem gen, booted_unread table opts mem gen⟩, fun _ => ?_⟩
    exact ⟨fun _ => rfl, fun _ => .of_zero rfl, by simp [view, booted], by simp [view, booted],
      fun _ _ _ => Nat.le_refl _⟩
  · intro v v' _ _ hq hm
    obtain ⟨⟨ht, hu⟩, hi⟩ := hq
    refine ⟨⟨ht.move hm.ledger, hu.move hm⟩, fun hr => ?_⟩
    have hle := hm.ledger.refused_le
    exact (hi (by omega)).move ht hu hr hm

/-- While no file request has failed there are three file records for each
anonymous one: at the end of every phase at least three, and with a precise
budget, from the first request on, between `3a + 1` and `3a + 4`. There is one
record for each request. -/
theorem file_anon_ratio (w : World γ) (table : FileTable) (opts : List Opt) (mem : Nat → UInt8)
    (gen : γ) (n : Nat) (hr : (run w table opts mem gen n).st.refused = 0) :
    let m := run w table opts mem gen n
    let f := fileCount m.st.toLedger
    let a := anonCount m.st.toLedger
    ((m.pc = .main ∨ ∃ l, m.pc = .hold l) → 3 * a ≤ f) ∧
      (m.st.allocPrecision = true → 1 ≤ f + a → 3 * a + 1 ≤ f ∧ f ≤ 3 * a + 4) ∧
      (halted m.pc = none → f + a = m.st.typeCnt ∧
        m.st.typeCnt = requestsMade (run w table opts mem gen) n) := by
  intro m f a
  have h : Ratio (view m) := run_ratio w table opts mem gen n hr
  have hprec : m.st.allocPrecision = true → a = (f + a - 1) / 4 := h.precise
  refine ⟨fun hpc => ?_, fun hp hone => ?_, fun hrun => ?_⟩
  · cases hp : m.st.allocPrecision with
    | true =>
      have := hprec hp
      omega
    | false =>
      refine h.rest hp ?_ ?_
      · rcases hpc with hpc | ⟨l, hpc⟩ <;> simp [view, hpc, halted]
      · rcases hpc with hpc | ⟨l, hpc⟩ <;> simp [view, hpc]
  · have := hprec hp
    omega
  · exact ⟨(h.counted hrun).symm, run_requestsMade w table opts mem gen n (.inl hrun)⟩

theorem file_anon_ratio_second_phase :
    let m := run plainWorld smallTable [.M 3, .e 1, .t 0] (fun _ => 0) () 14
    let f := fileCount m.st.toLedger
    let a := anonCount m.st.toLedger
    ((m.pc = .main ∨ ∃ l, m.pc = .hold l) → 3 * a ≤ f) ∧
      (m.st.allocPrecision = true → 1 ≤ f + a → 3 * a + 1 ≤ f ∧ f ≤ 3 * a + 4) ∧
      (halted m.pc = none → f + a = m.st.typeCnt ∧
        m.st.typeCnt = requestsMade (run plainWorld smallTable [.M 3, .e 1, .t 0] (fun _ => 0) ()) 14) :=
  file_anon_ratio plainWorld smallTable [.M 3, .e 1, .t 0] (fun _ => 0) () 14 (by decide +kernel)

end Gobbler.Proofs
