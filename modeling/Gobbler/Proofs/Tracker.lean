import Gobbler.Lib.Countdown
import Gobbler.Proofs.Plenty
import Gobbler.Proofs.Progress
import Gobbler.Proofs.Records

namespace Gobbler.Proofs
open Countdown

variable {γ : Type} {w : World γ} {table : FileTable} {b : Book}

/-- Every record that a budget of `byte` bytes allows has at least `unit` pages. -/
def AtLeast (table : FileTable) (byte unit : Nat) : Prop :=
  ∀ c ∈ table.classes, unit ≤ clip byte c.1 / pageSize

/-- The budget of a call of `job` is at most `MAX_ALLOC_PER_SE` times the pages
of the shortest record that it allows. -/
def Roomy (table : FileTable) (call : JobCall) : Prop :=
  ∀ c ∈ table.classes,
    call.maxAllocPerPhase ≤ maxAllocPerSe * (clip call.maxAllocPerPhaseByte c.1 / pageSize)

instance (table : FileTable) (call : JobCall) : Decidable (Roomy table call) :=
  inferInstanceAs (Decidable (∀ c ∈ table.classes,
    call.maxAllocPerPhase ≤ maxAllocPerSe * (clip call.maxAllocPerPhaseByte c.1 / pageSize)))

/-- The records of a transition have not used up what its count allows. -/
structure RoomLeft (table : FileTable) (v : View) : Prop where
  precise : ∀ e t l, v.pc = .trans e t l → v.book.allocPrecision = true → ∀ unit,
    AtLeast table v.book.maxAllocPerPhaseByte unit →
    Within v.book.maxAllocPerPhase l.cnt ((current v.book).length * unit)
  drawn : ∀ e t l, v.pc = .trans e t l → v.book.allocPrecision = false →
    (current v.book).length + l.cnt ≤ 18
  caller : ∀ e t l, v.pc = .trans e t l → ∃ call ∈ v.book.jobs,
    call.maxAllocPerPhase = v.book.maxAllocPerPhase ∧
      call.maxAllocPerPhaseByte = v.book.maxAllocPerPhaseByte

/-- A transition that has requests left finds room in its list. -/
theorem RoomLeft.length_lt {e : ℚ} {t : Granularity} {l : TransLocals}
    (h : RoomLeft table ⟨b, .trans e t l⟩)
    (hroomy : b.allocPrecision = true → ∀ call ∈ b.jobs, Roomy table call) (more : l.cnt ≠ 0) :
    (current b).length < maxAllocPerSe := by
  cases hp : b.allocPrecision with
  | true =>
    obtain ⟨call, hcall, hm, hbyte⟩ := h.caller e t l rfl
    have hfit := hroomy hp call hcall
    simp only [Roomy, maxAllocPerSe, hm, hbyte] at hfit
    -- the least number of pages of which `MAX_ALLOC_PER_SE` cover the budget
    have hwithin := h.precise e t l rfl hp ((b.maxAllocPerPhase + 499) / 500) ?_
    · apply hwithin.count more
      simp only [maxAllocPerSe]
      omega
    · intro c hc
      have hle := hfit c hc
      change _ ≤ clip b.maxAllocPerPhaseByte c.1 / pageSize
      omega
  | false =>
    have hdrawn : (current b).length + l.cnt ≤ 18 := h.drawn e t l rfl hp
    simp only [maxAllocPerSe]
    omega

theorem RoomLeft.of_pc {pc : Pc} (h : ∀ e t l, pc ≠ .trans e t l) : RoomLeft table ⟨b, pc⟩ :=
  ⟨fun e t l hpc => absurd hpc (h e t l), fun e t l hpc => absurd hpc (h e t l),
    fun e t l hpc => absurd hpc (h e t l)⟩

theorem RoomLeft.enter {cnt i : Nat} {anonSlice : Int} (ht : Tracked b.toLedger)
    (hs : Start (called b) cnt anonSlice) :
    RoomLeft table ⟨opened (called b) cnt, .trans b.wcetMs b.timeG ⟨cnt, i, anonSlice⟩⟩ := by
  have hb : Tracked (called b).toLedger := ht
  have hnew := hb.opened cnt
  refine ⟨?_, ?_, ?_⟩
  · intro e t l hpc hp unit _
    cases hpc
    simp only [hnew, List.length_nil, Nat.zero_mul]
    cases hs with
    | precise _ => exact .start _ (by simp [opened, called])
    | drawn hp' _ _ => exact absurd (hp'.symm.trans hp) Bool.noConfusion
  · intro e t l hpc hp
    cases hpc
    simp only [hnew, List.length_nil, Nat.zero_add]
    cases hs with
    | precise hp' => exact absurd (hp'.symm.trans hp) Bool.noConfusion
    | drawn _ _ high => exact high
  · intro e t l _
    exact ⟨_, List.mem_cons_self, rfl, rfl⟩

theorem GrantedFor.at_least {v : View} (hs : Settled table v) {lst : List FileClass}
    {type : MemType} {len unit : Nat} {node : Option (Nat × Nat)}
    (h : Granted v.book lst type len node)
    (hunit : AtLeast table v.book.maxAllocPerPhaseByte unit) : unit ≤ len / pageSize := by
  obtain ⟨c, hc, rfl⟩ := h.class
  obtain ⟨d, hd, hsize⟩ := hs.class hc
  exact hsize ▸ hunit d hd

/-- A request takes a place in the list and at least a unit of the count. -/
theorem RoomLeft.request {e : ℚ} {t : Granularity} {l : TransLocals} {typ : MemType}
    {cnt : Nat} {led : Ledger} (hs : Settled table ⟨b, .trans e t l⟩)
    (h : RoomLeft table ⟨b, .trans e t l⟩) (more : l.cnt ≠ 0)
    (hreq : Request pageSize b l.anonSlice l.cnt typ cnt led) :
    RoomLeft table ⟨withLedger b led, .trans e t (nextLocals l typ cnt)⟩ := by
  have hcaller := h.caller e t l rfl
  obtain ⟨hsame, hle⟩ | ⟨lst, r, node, granted, _, happ, hprec, hdrawn⟩ := hreq.counts more
  · refine ⟨?_, ?_, fun _ _ _ _ => hcaller⟩
    · intro e' t' l' hpc hp unit hunit
      cases hpc
      have hw := h.precise e t l rfl hp unit hunit
      simp only [hsame] at hw ⊢
      exact hw.lower (Nat.le_trans hle (Nat.sub_le _ _))
    · intro e' t' l' hpc hp
      cases hpc
      have hd := h.drawn e t l rfl hp
      simp only [hsame] at hd ⊢
      omega
  · refine ⟨?_, ?_, fun _ _ _ _ => hcaller⟩
    · intro e' t' l' hpc hp unit hunit
      cases hpc
      have hpages := granted.at_least hs hunit
      have hw := h.precise e t l rfl hp unit hunit
      simp only [happ, List.length_append, List.length_singleton, hprec hp] at hw ⊢
      apply hw.spend more
      rw [Nat.succ_mul]
      exact Nat.add_le_add_left hpages _
    · intro e' t' l' hpc hp
      cases hpc
      have hd := h.drawn e t l rfl hp
      have hle := hdrawn hp
      simp only [happ, List.length_append, List.length_singleton] at hd ⊢
      omega

theorem RoomLeft.move {v v' : View} (hps : w.pageSize = pageSize) (ht : Tracked v.book.toLedger)
    (hs : Settled table v) (h : RoomLeft table v) (hm : Move w v v') : RoomLeft table v' := by
  cases hm with
  | boot _ _ next =>
    rcases next with rfl | ⟨_, rfl, _⟩
    · exact .of_pc (by simp)
    · exact .of_pc (by simp)
  | idle hi => cases hi <;> exact .of_pc (by simp)
  | enter located _ _ start =>
    have hl := located.ledger
    exact .enter (hl ▸ ht) start
  | request more request => exact h.request hs more (hps ▸ request)
  | _ => exact .of_pc (by simp)

/-- The exit of a request that finds the list of its phase full. -/
def trackerFull : Halt := .exit "Failed to add new tracker"

theorem BootHalt.ne_full {h : Halt} (hb : BootHalt h) : h ≠ trackerFull := by
  cases hb <;> decide

theorem Forced.ne_full {h : Halt} (hf : Forced w h) : h ≠ trackerFull := by
  cases hf <;> decide

theorem TouchHalt.ne_full {h : Halt} (ht : TouchHalt h) : h ≠ trackerFull := by
  cases ht <;> decide

theorem Trouble.ne_full {h : Halt} (ht : Trouble w b h) : h ≠ trackerFull := by
  cases ht with
  | touch why _ => exact why.ne_full
  | track _ => decide

theorem Early.ne_full {h : Halt} (he : Early w b h) : h ≠ trackerFull := by
  cases he with
  | forced why => exact why.ne_full
  | _ => decide

/-- Only a budget that is not roomy fills a list. -/
def FullOnly (table : FileTable) (v : View) : Prop :=
  v.pc = .stopped trackerFull →
    v.book.allocPrecision = true ∧ ∃ call ∈ v.book.jobs, ¬Roomy table call

theorem FullOnly.of_ne {h : Halt} (hne : h ≠ trackerFull) : FullOnly table ⟨b, .stopped h⟩ := by
  intro hpc
  cases hpc
  exact absurd rfl hne

theorem RoomLeft.fullOnly {v v' : View} (h : RoomLeft table v) (hf : FullOnly table v)
    (hm : Move w v v') : FullOnly table v' := by
  cases hm with
  | boot _ _ next =>
    rcases next with rfl | ⟨_, rfl, hb⟩
    · simp [FullOnly]
    · exact .of_ne hb.ne_full
  | idle hi =>
    cases hi with
    | ended | unread | leaveHalt => exact .of_ne (by decide)
    | holdHalt why => exact .of_ne why.ne_full
    | stopped => exact hf
    | _ => simp [FullOnly]
  | finish | overrun => exact .of_ne (by decide)
  | enterHalt _ _ why =>
    rcases why with hf | ⟨rfl, _⟩
    · exact .of_ne hf.ne_full
    · exact .of_ne (by decide)
  | trouble _ _ _ why => exact .of_ne why.ne_full
  | @aborted b _ _ _ _ _ more aborted =>
    cases aborted with
    | early why _ => exact .of_ne why.ne_full
    | full _ room =>
      intro _
      by_contra hnot
      have hlt := h.length_lt (fun hp call hcall => ?_) more
      · exact Nat.not_le_of_lt hlt room
      · by_contra hbad
        exact hnot ⟨hp, call, hcall, hbad⟩
  | skip | enter | request => simp [FullOnly]

theorem run_roomLeft (w : World γ) (hps : w.pageSize = pageSize) (table : FileTable)
    (opts : List Opt) (mem : Nat → UInt8) (gen : γ) (n : Nat) :
    RoomLeft table (view (run w table opts mem gen n)) ∧
      FullOnly table (view (run w table opts mem gen n)) := by
  refine (run_invariant w table opts mem gen (I := fun v => Tracked v.book.toLedger ∧
    RoomLeft table v ∧ FullOnly table v) ?_ ?_ n).2
  · exact ⟨booted_tracked table opts mem gen, .of_pc (by simp [booted]),
      by simp [FullOnly, view, booted]⟩
  · intro v v' _ hs hq hm
    obtain ⟨ht, h, hf⟩ := hq
    exact ⟨ht.move hm.ledger, h.move hps ht hs hm, h.fullOnly hf hm⟩

/-- With sizes of whole pages, every budget of at most `MAX_ALLOC_PER_SE` pages
is roomy. -/
theorem Roomy.of_le {call : JobCall} (ht : PageTable table)
    (hbyte : pageSize ∣ call.maxAllocPerPhaseByte) (hle : call.maxAllocPerPhase ≤ maxAllocPerSe) :
    Roomy table call := by
  intro c hc
  obtain ⟨hpos, hdvd⟩ := ht c hc
  have hpage : 0 < clip call.maxAllocPerPhaseByte c.1 / pageSize := by
    simp only [clip, pageSize] at *
    split <;> omega
  calc call.maxAllocPerPhase ≤ maxAllocPerSe := hle
    _ ≤ maxAllocPerSe * (clip call.maxAllocPerPhaseByte c.1 / pageSize) :=
        Nat.le_mul_of_pos_right _ hpage

/-- The bytes of all budgets so far are those of whole pages. -/
theorem run_jobs_dvd (w : World γ) (table : FileTable) (opts : List Opt) (mem : Nat → UInt8) (gen : γ)
    (n : Nat) : ∀ call ∈ (run w table opts mem gen n).st.jobs, pageSize ∣ call.maxAllocPerPhaseByte := by
  refine run_invariant w table opts mem gen
    (I := fun v => ∀ call ∈ v.book.jobs, pageSize ∣ call.maxAllocPerPhaseByte) nofun ?_ n
  intro v v' _ hs hq hm
  have hbudget := (hs.move hm).budget
  cases hm with
  | boot configured => exact configured.jobs.symm ▸ hq
  | idle hi => cases hi <;> exact hq
  | finish located | overrun located => exact located.jobs.1.symm ▸ hq
  | skip located | enter located | enterHalt located =>
    intro call hcall
    rcases List.mem_cons.mp hcall with rfl | hcall
    · exact hbudget.dvd
    · exact hq call (located.jobs.1 ▸ hcall)
  | request | trouble | aborted => exact hq

/-- A transition with a count of `M` that has put `k` records of one page in its list. -/
structure Filling (table : FileTable) (M k : Nat) (m : Machine γ) : Prop where
  ok : Ok (view m)
  settled : Settled table (view m)
  pc : ∃ e t l, m.pc = .trans e t l ∧ l.cnt + k = M
  precise : m.st.allocPrecision = true
  byte : pageSize ≤ m.st.maxAllocPerPhaseByte
  inside : InTracker m.st.toBook
  typeCnt : m.st.typeCnt = k
  length : (current m.st.toBook).length = k
  pages : ∀ r ∈ current m.st.toBook, r.len = pageSize
  plenty : Plenty pageSize m.st.toBook

/-- Where every class has one page, so has every mapping. -/
theorem GrantedFor.page {v : View} (hs : Settled table v) (ht : ∀ e ∈ table.classes, e.1 = pageSize)
    (hbyte : pageSize ≤ v.book.maxAllocPerPhaseByte) {lst : List FileClass} {type : MemType}
    {len : Nat} {node : Option (Nat × Nat)} (h : Granted v.book lst type len node) :
    len = pageSize := by
  obtain ⟨c, hc, rfl⟩ := h.class
  obtain ⟨e, he, hsize⟩ := hs.class hc
  rw [← hsize, ht e he, clip, if_neg]
  omega

section filling

variable {M k : Nat} {m : Machine γ} (ht : ∀ e ∈ table.classes, e.1 = pageSize)

include ht

theorem Filling.request (h : Filling table M k m) {l : TransLocals} (more : l.cnt ≠ 0) {ps cnt : Nat}
    {typ : MemType} {led : Ledger} (hreq : Request ps m.st.toBook l.anonSlice l.cnt typ cnt led) :
    ∀ r ∈ current (withLedger m.st.toBook led), r.len = pageSize := by
  intro r hr
  rcases hreq.counts more with ⟨hsame, _⟩ | ⟨_, _, _, granted, _, hadd, _⟩
  · rw [hsame] at hr
    exact h.pages r hr
  · rw [hadd] at hr
    rcases List.mem_append.mp hr with hr | hr
    · exact h.pages r hr
    · rw [List.mem_singleton.mp hr]
      exact granted.page h.settled ht h.byte

variable (hw : Willing w) (hps : w.pageSize = pageSize)

include hw hps

/-- The next pass makes a request, or finds the list full. -/
theorem Filling.pass (h : Filling table M k m) (hk : k ≤ maxAllocPerSe) (hM : k < M) :
    (∃ e t l typ cnt led, l.cnt + k = M ∧
      Request w.pageSize m.st.toBook l.anonSlice l.cnt typ cnt led ∧
      (step w m).st.toBook = withLedger m.st.toBook led ∧
      (step w m).pc = .trans e t (nextLocals l typ cnt)) ∨
    (maxAllocPerSe ≤ k ∧ (step w m).pc = .stopped trackerFull) := by
  obtain ⟨e, t, l, hpc, hcnt⟩ := h.pc
  have more : l.cnt ≠ 0 := by omega
  have hmove := (step_turned (w := w) h.ok).move
  rw [hpc] at hmove
  have hsized : ∀ typ cnt led, Request w.pageSize m.st.toBook l.anonSlice l.cnt typ cnt led →
      InTracker (withLedger m.st.toBook led) ∧ Sized w (withLedger m.st.toBook led) := by
    intro typ cnt led hreq
    refine ⟨?_, hps, h.settled.access, fun r hr => ?_⟩
    · have hcurr : led.curr = m.st.curr := hreq.curr
      have hin := h.inside
      simp only [InTracker] at hin ⊢
      exact hcurr ▸ hin
    · rw [h.request ht more hreq r hr]
      decide
  have hsmall : m.st.typeCnt + 1 < 2 ^ 31 := by
    rw [h.typeCnt]
    simp only [maxAllocPerSe] at hk
    omega
  rcases hmove.of_request_or_full hw more h.inside hsmall hsized with
    ⟨typ, cnt, led, hreq, hbook, hnext⟩ | ⟨hfull, hstop⟩
  · exact .inl ⟨e, t, l, typ, cnt, led, hcnt, hreq, hbook, hnext⟩
  · exact .inr ⟨h.length ▸ hfull, hstop⟩

/-- With nodes in plenty it is served. -/
theorem Filling.served (h : Filling table M k m) (hk : k ≤ maxAllocPerSe) (hM : k < M) :
    (∃ e t l lst r node, l.cnt + k = M ∧ r.type ≠ .typeMax ∧ r.len = pageSize ∧ k < maxAllocPerSe ∧
      Plenty pageSize (step w m).st.toBook ∧
      (step w m).st.toBook = withLedger m.st.toBook (taken pageSize m.st.toLedger lst r node) ∧
      (step w m).pc = .trans e t (nextLocals l r.type (l.cnt - 1))) ∨
    (maxAllocPerSe ≤ k ∧ (step w m).pc = .stopped trackerFull) := by
  refine (h.pass ht hw hps hk hM).imp_left fun hpass => ?_
  obtain ⟨e, t, l, typ, cnt, led, hcnt, hreq, hbook, hnext⟩ := hpass
  have hplenty := h.plenty.request hreq
  cases hreq with
  | refused _ asked full =>
    obtain ⟨d, hd, hsize⟩ := h.settled.class asked.mem
    have hle := Nat.le_of_eq (hsize.symm.trans (ht d hd))
    exact absurd full (h.plenty.not_exhausted hle)
  | @served lst r node chosen granted _ _ room _ =>
    have hlen := granted.page h.settled ht h.byte
    have hone : countdown m.st.allocPrecision l.cnt (r.len / w.pageSize) = l.cnt - 1 := by
      rw [h.precise, countdown_precise, hlen, hps, Nat.div_self (by decide)]
    rw [hone] at hnext
    rw [hps] at hbook
    have hk' : k < maxAllocPerSe := h.length ▸ room
    exact ⟨e, t, l, lst, r, node, hcnt, chosen.ne_typeMax, hlen, hk', hbook ▸ hps ▸ hplenty, hbook,
      hnext⟩

theorem Filling.next (h : Filling table M k m) (hk : k < maxAllocPerSe) (hM : k < M) :
    Filling table M (k + 1) (step w m) := by
  have hmove := (step_turned (w := w) h.ok).move
  rcases h.served ht hw hps (Nat.le_of_lt hk) hM with
    ⟨e, t, l, lst, r, node, hcnt, htype, hlen, _, hplenty, hbook, hnext⟩ | ⟨hfull, _⟩
  · have hlist : current (step w m).st.toBook = current m.st.toBook ++ [r] := by
      rw [hbook, current_taken]
    refine ⟨h.ok.move hmove, h.settled.move hmove, ⟨e, t, _, hnext, ?_⟩, ?_, ?_, ?_, ?_, ?_, ?_,
      hplenty⟩
    · rw [nextLocals, if_neg htype]
      change l.cnt - 1 + (k + 1) = M
      omega
    · exact (congrArg (fun b : Book => b.allocPrecision) hbook).trans h.precise
    · rw [hbook]
      exact h.byte
    · rw [hbook]
      cases node <;> exact h.inside
    · rw [hbook]
      cases node <;> exact congrArg (· + 1) h.typeCnt
    · rw [hlist, List.length_append, List.length_singleton, h.length]
    · intro r' hr'
      rw [hlist] at hr'
      rcases List.mem_append.mp hr' with hr' | hr'
      · exact h.pages r' hr'
      · exact List.mem_singleton.mp hr' ▸ hlen
  · exact absurd hk (Nat.not_lt_of_le hfull)

theorem Filling.run (h : Filling table M 0 m) (hk : k ≤ maxAllocPerSe) (hM : k ≤ M) :
    Filling table M k ((step w)^[k] m) := by
  induction k with
  | zero => exact h
  | succ k ih =>
    rw [Function.iterate_succ_apply']
    exact (ih (by omega) (by omega)).next ht hw hps (by omega) (by omega)

/-- A count of more pages than the list has places fills it. -/
theorem filling_full (h : Filling table M 0 m) (hM : maxAllocPerSe < M) :
    ((step w)^[maxAllocPerSe + 1] m).pc = .stopped trackerFull := by
  have hfill := h.run ht hw hps (Nat.le_refl _) (Nat.le_of_lt hM)
  rw [Function.iterate_succ_apply']
  rcases hfill.served ht hw hps (Nat.le_refl _) hM with
    ⟨_, _, _, _, _, _, _, _, _, hlt, _⟩ | ⟨_, hstop⟩
  · exact absurd hlt (Nat.lt_irrefl _)
  · exact hstop

end filling

/-- One class of one page, with more nodes than a list has places. -/
def oneTable : FileTable where
  classes := [(4096, List.replicate 501 "a")]
  nonempty := by decide
  length_lt := by decide
  size_lt := by decide

theorem oneTable_pages : ∀ e ∈ oneTable.classes, e.1 = pageSize := by
  intro e he
  rw [oneTable, List.mem_singleton] at he
  rw [he]
  rfl

set_option maxRecDepth 10000 in
theorem oneTable_filling :
    Filling oneTable 501 0 (run plainWorld oneTable [.M 501, .e 1, .t 0] (fun _ => 0) () 2) := by
  let m := run plainWorld oneTable [.M 501, .e 1, .t 0] (fun _ => 0) () 2
  have hpc : m.pc = .trans 1 .secs ⟨501, 0, -1⟩ := by decide +kernel
  have hempty : current m.st.toBook = [] := by decide +kernel
  refine ⟨run_ok _ _ _ _ _ 2, run_settled _ _ _ _ _ 2, ⟨_, _, _, hpc, rfl⟩, by decide +kernel,
    by decide +kernel, ⟨by decide +kernel, by decide +kernel⟩, by decide +kernel, ?_, ?_, ?_⟩
  · rw [hempty]
    rfl
  · rw [hempty]
    exact List.forall_mem_nil _
  · exact ⟨by decide +kernel, 0, ⟨4096, List.replicate 501 ⟨0, "a"⟩, 0⟩, by decide +kernel, by decide,
      by decide +kernel⟩

/-- As long as the budgets are roomy, every request finds room in the list of its
phase. With sizes of whole pages budgets of at most `MAX_ALLOC_PER_SE` pages are. -/
theorem tracker_never_full (w : World γ) (hps : w.pageSize = 4096) (table : FileTable)
    (opts : List Opt) (mem : Nat → UInt8) (gen : γ) (n : Nat)
    (hroomy : (run w table opts mem gen n).st.allocPrecision = true →
      ∀ call ∈ (run w table opts mem gen n).st.jobs, Roomy table call) :
    let s := (run w table opts mem gen n).st
    (∀ e t l, (run w table opts mem gen n).pc = .trans e t l → l.cnt ≠ 0 →
        (s.allocTrack s.curr.toNat).length < maxAllocPerSe) ∧
      (run w table opts mem gen n).pc ≠ .stopped (.exit "Failed to add new tracker") ∧
      (PageTable table → ∀ call ∈ s.jobs, call.maxAllocPerPhase ≤ maxAllocPerSe → Roomy table call) := by
  intro s
  obtain ⟨hroom, hfull⟩ := run_roomLeft w hps table opts mem gen n
  refine ⟨?_, ?_, fun ht call hcall => .of_le ht (run_jobs_dvd w table opts mem gen n call hcall)⟩
  · intro e t l hpc more
    have hroom' : RoomLeft table ⟨s.toBook, .trans e t l⟩ := hpc ▸ hroom
    exact hroom'.length_lt hroomy more
  · intro hpc
    obtain ⟨hp, call, hcall, hbad⟩ := hfull hpc
    exact hbad (hroomy hp call hcall)

/-- The transition has made one request of three. -/
theorem tracker_never_full_three :
    let m := run plainWorld smallTable [.M 3, .e 1, .t 0] (fun _ => 0) () 3
    m.pc = .trans 1 .secs ⟨2, 0, -1⟩ ∧ (m.st.allocTrack m.st.curr.toNat).length < maxAllocPerSe ∧
      m.pc ≠ .stopped (.exit "Failed to add new tracker") ∧
      ∀ call ∈ m.st.jobs, call.maxAllocPerPhase ≤ maxAllocPerSe → Roomy smallTable call := by
  intro m
  have hpc : m.pc = .trans 1 .secs ⟨2, 0, -1⟩ := by decide +kernel
  have htable : PageTable smallTable := by simp [PageTable, smallTable, pageSize]
  obtain ⟨hroom, hfull, hsmall⟩ := tracker_never_full plainWorld rfl smallTable
    [.M 3, .e 1, .t 0] (fun _ => 0) () 3 (by decide +kernel)
  exact ⟨hpc, hroom _ _ _ hpc (by decide), hfull, hsmall htable⟩

/-- A budget of one page more than the list has places. -/
theorem tracker_full_501 : PageTable oneTable ∧
    halted (run plainWorld oneTable [.M 501, .e 1, .t 0] (fun _ => 0) () 503).pc =
      some (.exit "Failed to add new tracker") := by
  constructor
  · intro e he
    rw [oneTable_pages e he]
    decide
  · have hfull := filling_full oneTable_pages plainWorld_willing rfl oneTable_filling (by decide)
    rw [← run_add] at hfull
    change halted (run plainWorld oneTable _ _ _ (maxAllocPerSe + 1 + 2)).pc = _
    rw [hfull]
    rfl

end Gobbler.Proofs
