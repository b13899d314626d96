import Gobbler.Proofs.Records

namespace Gobbler.Proofs

variable {γ : Type} {w : World γ} {table : FileTable} {ps : Nat} {b : Book} {l : Ledger}
  {anonSlice : Int}

/-- `file_lst[0].size`. -/
def firstSize (table : FileTable) : Nat := (table.classes.get ⟨0, table.nonempty⟩).1

/-- The length that `-l` allows a record. -/
def upperLimit (table : FileTable) (b : Book) : Nat :=
  max (b.maxLimit * pageSize) (firstSize table)

/-- The budget of the phase, or the classes that may be asked for and the
classes that then have a node, are within `bound`. -/
def LimitMet (bound : Nat) (b : Book) (anonSlice : Int) : Prop :=
  (0 < b.maxAllocPerPhaseByte ∧ b.maxAllocPerPhaseByte ≤ bound) ∨
    ∀ c, Asked b c →
      (Chosen b.typeCnt anonSlice .anon → c.size ≤ bound) ∧
      (Chosen b.typeCnt anonSlice .file →
        ∀ d i j, FirstFit b.fileLst c.size d i j → d.size ≤ bound)

theorem clip_le_iff {byte len bound : Nat} (h : ¬(0 < byte ∧ byte ≤ bound)) :
    clip byte len ≤ bound ↔ len ≤ bound := by
  unfold clip
  split <;> omega

theorem clip_le_byte {byte : Nat} (h : 0 < byte) (len : Nat) : clip byte len ≤ byte := by
  unfold clip
  split <;> omega

/-- The condition holds just when no mapping that a request may be granted is too long. -/
theorem limitMet_iff {bound : Nat} : LimitMet bound b anonSlice ↔
    ∀ lst type len node, Chosen b.typeCnt anonSlice type → Granted b lst type len node →
      len ≤ bound := by
  by_cases hbyte : 0 < b.maxAllocPerPhaseByte ∧ b.maxAllocPerPhaseByte ≤ bound
  · refine ⟨fun _ lst type len node _ hg => ?_, fun _ => .inl hbyte⟩
    obtain ⟨c, _, rfl⟩ := hg.class
    exact Nat.le_trans (clip_le_byte hbyte.1 _) hbyte.2
  · constructor
    · intro h lst type len node hch hg
      have hsizes := h.resolve_left hbyte
      cases hg with
      | anon asked => exact (clip_le_iff hbyte).mpr ((hsizes _ asked).1 hch)
      | file asked _ fit => exact (clip_le_iff hbyte).mpr ((hsizes _ asked).2 hch _ _ _ fit)
    · intro h
      refine .inr fun c hc => ⟨fun hch => ?_, fun hch d i j hf => ?_⟩
      · exact (clip_le_iff hbyte).mp (h _ _ _ _ hch (.anon hc))
      · exact (clip_le_iff hbyte).mp (h _ _ _ _ hch (.file hc (PoolSearched.refl _) hf))

/-- No record is longer than the limit allows. -/
def Bounded (table : FileTable) (v : View) : Prop :=
  ∀ r ∈ allRecords v.book.toLedger, r.len ≤ upperLimit table v.book

/-- Every request is made where the limit is met. -/
def RequestsMet (table : FileTable) (v : View) : Prop :=
  ∀ e t l, v.pc = .trans e t l → l.cnt ≠ 0 →
    LimitMet (upperLimit table v.book) v.book l.anonSlice

theorem Bounded.same {b' : Book} {pc pc' : Pc} (h : Bounded table ⟨b, pc⟩)
    (hr : allRecords b'.toLedger = allRecords b.toLedger) (hm : b'.maxLimit = b.maxLimit) :
    Bounded table ⟨b', pc'⟩ := by
  have heq : upperLimit table b' = upperLimit table b := by rw [upperLimit, upperLimit, hm]
  simp only [Bounded, hr, heq]
  exact h

theorem Bounded.request {pc pc' : Pc} {cnt cnt' : Nat} {typ : MemType}
    (h : Bounded table ⟨b, pc⟩) (hmet : LimitMet (upperLimit table b) b anonSlice)
    (hreq : Request ps b anonSlice cnt typ cnt' l) : Bounded table ⟨withLedger b l, pc'⟩ := by
  rcases hreq.records with hsame | ⟨lst, r, node, happ, hch, hg, _⟩
  · exact h.same hsame rfl
  · intro r' hr'
    simp only [withLedger, happ] at hr'
    rcases List.mem_append.mp hr' with hr' | hr'
    · exact h r' hr'
    · rw [List.mem_singleton.mp hr']
      exact limitMet_iff.mp hmet _ _ _ _ hch hg

theorem Located.maxLimit {b b' : Book} (h : Located b b') : b'.maxLimit = b.maxLimit := by
  obtain ⟨_, _ | _⟩ := h <;> rfl

theorem AbortedFor.records {anonSlice : Int} {h : Halt} (ha : Aborted w b anonSlice h l) :
    allRecords l = allRecords b.toLedger := by
  cases ha <;> rfl

theorem Bounded.move {v v' : View} (ht : Tracked v.book.toLedger) (hu : Unread table v)
    (h : Bounded table v) (hmet : RequestsMet table v) (hm : Move w v v') : Bounded table v' := by
  cases hm with
  | @boot b b' _ _ _ ledger _ =>
    have hl : b'.toLedger = emptyLedger table := ledger.trans (hu.booting _ rfl).1
    intro r hr
    simp [hl, allRecords, emptyLedger, initial] at hr
  | idle hi => cases hi <;> exact h.same rfl rfl
  | finish located _ | overrun located _ | skip located _ | enterHalt located _ _ =>
    exact h.same (congrArg allRecords located.ledger) located.maxLimit
  | enter located _ _ _ =>
    have hl := located.ledger
    refine h.same ?_ located.maxLimit
    exact (allRecords_phased (hl ▸ ht)).trans (congrArg allRecords hl)
  | request more request => exact h.request (hmet _ _ _ rfl more) request
  | trouble more request _ _ => exact h.request (hmet _ _ _ rfl more) request
  | aborted _ aborted => exact h.same aborted.records rfl

/-- A run that makes every request where the limit is met records nothing longer. -/
theorem record_upper_limit (w : World γ) (table : FileTable) (opts : List Opt)
    (mem : Nat → UInt8) (gen : γ) (n : Nat)
    (hmet : ∀ k, k < n → ∀ e t l, (run w table opts mem gen k).pc = .trans e t l → l.cnt ≠ 0 →
      LimitMet (upperLimit table (run w table opts mem gen k).st.toBook)
        (run w table opts mem gen k).st.toBook l.anonSlice) :
    ∀ r ∈ allRecords (run w table opts mem gen n).st.toLedger,
      r.len ≤ max ((run w table opts mem gen n).st.maxLimit * pageSize) (firstSize table) := by
  refine (run_under w table opts mem gen (G := RequestsMet table) (I := fun v =>
    (Tracked v.book.toLedger ∧ Unread table v) ∧ Bounded table v) ?_ ?_ n hmet).2
  · refine ⟨⟨booted_tracked table opts mem gen, booted_unread table opts mem gen⟩, ?_⟩
    intro r hr
    simp [allRecords, view, booted, initial] at hr
  · intro v v' _ _ hq hg hm
    obtain ⟨⟨ht, hu⟩, h⟩ := hq
    exact ⟨⟨ht.move hm.ledger, hu.move hm⟩, h.move ht hu hg hm⟩

theorem record_upper_limit_one_page :
    let s := (run plainWorld smallTable [.l 1, .M 1, .e 1, .t 0] (fun _ => 0) () 4).st
    allRecords s.toLedger ≠ [] ∧
      ∀ r ∈ allRecords s.toLedger, r.len ≤ max (s.maxLimit * pageSize) (firstSize smallTable) := by
  refine ⟨by decide +kernel,
    record_upper_limit plainWorld smallTable [.l 1, .M 1, .e 1, .t 0] (fun _ => 0) () 4 ?_⟩
  have hbyte : ∀ k, k < 4 → k = 0 ∨
      (0 < (run plainWorld smallTable [.l 1, .M 1, .e 1, .t 0] (fun _ => 0) () k).st.maxAllocPerPhaseByte ∧
        (run plainWorld smallTable [.l 1, .M 1, .e 1, .t 0] (fun _ => 0) () k).st.maxAllocPerPhaseByte ≤
          upperLimit smallTable
            (run plainWorld smallTable [.l 1, .M 1, .e 1, .t 0] (fun _ => 0) () k).st.toBook) := by
    decide +kernel
  intro k hk e t l hpc _
  rcases hbyte k hk with rfl | hle
  · cases hpc
  · exact .inl hle

/-- Two classes, of one page and of three. -/
def gapTable : FileTable where
  classes := [(4096, ["a"]), (12288, ["b", "c"])]
  nonempty := by decide
  length_lt := by decide
  size_lt := by decide

/-- The machine of `plainWorld`, where every draw is one. -/
def unluckyWorld : World Unit :=
  { plainWorld with
    rand := fun g => (1, g)
    rand_le := fun _ => (by decide : 1 ≤ randMax) }

/-- With `-l 2` ten draws of the larger class leave that class. With `-l 1` the
third file no longer finds a node of the smaller class. -/
theorem record_over_limit :
    (∃ r ∈ allRecords (run unluckyWorld gapTable [.l 2, .M 3, .e 1, .t 0] (fun _ => 0) () 3).st.toLedger,
      max (2 * pageSize) (firstSize gapTable) < r.len) ∧
    ∃ r ∈ allRecords (run plainWorld smallTable [.l 1, .M 4, .e 1, .t 0] (fun _ => 0) () 5).st.toLedger,
      max (1 * pageSize) (firstSize smallTable) < r.len := by
  decide +kernel

end Gobbler.Proofs
