import Gobbler.Proofs.Runs

namespace Gobbler.Proofs

variable {γ : Type} {w : World γ} {table : FileTable} {ps : Nat} {b : Book} {x : Option Halt}
  {l : Ledger}

/-- All records of the tracker, phase by phase. -/
def allRecords (l : Ledger) : List AllocRec := (List.range (l.curr + 1).toNat).flatMap l.allocTrack

/-- The records of one type. -/
def recordsOf (type : MemType) (l : Ledger) : List AllocRec :=
  (allRecords l).filter fun r => r.type = type

/-- The tracker has lists only for the phases already opened. -/
structure Tracked (l : Ledger) : Prop where
  low : -1 ≤ l.curr
  high : l.curr ≤ maxAlloc
  above : ∀ i : Nat, l.curr < i → l.allocTrack i = []

theorem allRecords_succ {l : Ledger} (h : 0 ≤ l.curr) :
    allRecords l = (List.range l.curr.toNat).flatMap l.allocTrack ++ l.allocTrack l.curr.toNat := by
  rw [allRecords, show (l.curr + 1).toNat = l.curr.toNat + 1 by omega, List.range_succ,
    List.flatMap_append]
  simp

theorem allRecords_phased {l : Ledger} (h : Tracked l) : allRecords (phased l) = allRecords l := by
  have hlow := h.low
  have hnew : l.allocTrack (l.curr + 1).toNat = [] := h.above _ (by omega)
  rw [allRecords_succ (l := phased l) (by simp only [phased]; omega)]
  simp only [phased, hnew, List.append_nil]
  rfl

theorem allRecords_recorded {l : Ledger} (h : 0 ≤ l.curr) (r : AllocRec) :
    allRecords (recorded l r) = allRecords l ++ [r] := by
  rw [allRecords_succ h, allRecords_succ (l := recorded l r) h]
  have hlt : (List.range l.curr.toNat).flatMap (recorded l r).allocTrack =
      (List.range l.curr.toNat).flatMap l.allocTrack := by
    apply List.flatMap_congr
    intro i hi
    exact Function.update_of_ne (Nat.ne_of_lt (List.mem_range.mp hi)) _ _
  rw [show (recorded l r).curr = l.curr from rfl, hlt]
  simp [recorded]

theorem mem_allRecords {l : Ledger} {r : AllocRec} :
    r ∈ allRecords l ↔ ∃ i : Nat, (i : Int) ≤ l.curr ∧ r ∈ l.allocTrack i := by
  simp only [allRecords, List.mem_flatMap, List.mem_range]
  constructor
  · intro hq
    obtain ⟨i, hi, hr⟩ := hq
    exact ⟨i, by omega, hr⟩
  · intro hq
    obtain ⟨i, hi, hr⟩ := hq
    exact ⟨i, by omega, hr⟩

theorem marked_track (l : Ledger) (node : Option (Nat × Nat)) :
    (marked l node).allocTrack = l.allocTrack ∧ (marked l node).curr = l.curr := by
  cases node <;> exact ⟨rfl, rfl⟩

theorem allRecords_congr {l l' : Ledger} (ht : l'.allocTrack = l.allocTrack)
    (hc : l'.curr = l.curr) : allRecords l' = allRecords l := by
  rw [allRecords, allRecords, ht, hc]

theorem allRecords_taken {lst : List FileClass} {r : AllocRec} {node : Option (Nat × Nat)}
    (h : 0 ≤ l.curr) : allRecords (taken ps l lst r node) = allRecords l ++ [r] := by
  obtain ⟨ht, hc⟩ := marked_track
    (paged (recorded (searched (counted l) lst) r) r.type (r.len / ps)) node
  rw [taken, allRecords_congr ht hc]
  exact allRecords_recorded h r

theorem current_taken {lst : List FileClass} {r : AllocRec} {node : Option (Nat × Nat)} :
    current (withLedger b (taken ps b.toLedger lst r node)) = current b ++ [r] := by
  obtain ⟨ht, hc⟩ := marked_track
    (paged (recorded (searched (counted b.toLedger) lst) r) r.type (r.len / ps)) node
  change (taken ps b.toLedger lst r node).allocTrack (taken ps b.toLedger lst r node).curr.toNat = _
  rw [taken, ht, hc]
  exact Function.update_self _ _ _

theorem RequestFor.curr {ps : Nat} {anonSlice : Int} {cnt cnt' : Nat} {typ : MemType}
    (h : Request ps b anonSlice cnt typ cnt' l) : l.curr = b.curr := by
  cases h with
  | refused => rfl
  | served => exact (marked_track _ _).2

theorem AbortedFor.curr {anonSlice : Int} {h : Halt} (ha : Aborted w b anonSlice h l) :
    l.curr = b.curr := by
  cases ha <;> rfl

theorem wrapSub_one_le {n : Nat} (h : n ≠ 0) : wrapSub n 1 ≤ n - 1 := by
  simp only [wrapSub]
  omega

theorem countdown_precise (cnt pages : Nat) : countdown true cnt pages = cnt - pages := by
  simp only [countdown, if_true]
  split <;> omega

/-- A request adds a record to its phase or leaves the phase as it was, and
counts it. -/
theorem RequestFor.counts {l : TransLocals} {typ : MemType} {cnt : Nat} {led : Ledger}
    (h : Request ps b l.anonSlice l.cnt typ cnt led) (more : l.cnt ≠ 0) :
    (current (withLedger b led) = current b ∧ (nextLocals l typ cnt).cnt ≤ l.cnt - 1) ∨
      ∃ lst r node, Granted b lst r.type r.len node ∧ (current b).length < maxAllocPerSe ∧
        current (withLedger b led) = current b ++ [r] ∧
        (b.allocPrecision = true → (nextLocals l typ cnt).cnt = l.cnt - r.len / ps) ∧
        (b.allocPrecision = false → (nextLocals l typ cnt).cnt ≤ l.cnt - 1) := by
  have hone := wrapSub_one_le more
  cases h with
  | refused => exact .inl ⟨rfl, hone⟩
  | @served lst r node chosen granted _ _ room =>
    have hne := chosen.ne_typeMax
    simp only [nextLocals, if_neg hne]
    refine .inr ⟨lst, r, node, granted, room, current_taken, ?_, ?_⟩
    · intro hp
      rw [hp, countdown_precise]
    · intro hp
      rwa [hp, countdown, if_neg Bool.false_ne_true]

theorem Tracked.move (h : Tracked b.toLedger) (hm : LedgerMove w b x l) : Tracked l := by
  have hlow := h.low
  have hhigh := h.high
  cases hm with
  | same => exact h
  | phase room =>
    refine ⟨?_, ?_, fun i hi => h.above i ?_⟩
    · simp only [phased]
      omega
    · simp only [phased]
      omega
    · simp only [phased] at hi
      omega
  | request request =>
    cases request with
    | refused => exact ⟨h.low, h.high, h.above⟩
    | @served lst r node _ _ _ track _ =>
      obtain ⟨ht, hc⟩ := marked_track
        (paged (recorded (searched (counted b.toLedger) lst) r) r.type (r.len / w.pageSize)) node
      have hc' : (taken w.pageSize b.toLedger lst r node).curr = b.curr := hc
      refine ⟨hc'.symm ▸ h.low, hc'.symm ▸ h.high, fun i hi => ?_⟩
      rw [hc'] at hi
      have hne : i ≠ b.curr.toNat := by omega
      rw [taken, ht]
      exact (Function.update_of_ne hne _ _).trans (h.above i hi)
  | aborted aborted =>
    cases aborted with
    | early => exact ⟨h.low, h.high, h.above⟩
    | full => exact ⟨h.low, h.high, h.above⟩

/-- A phase begins with an empty list. -/
theorem Tracked.opened (h : Tracked b.toLedger) (cnt : Nat) : current (opened b cnt) = [] := by
  have hlow := h.low
  apply h.above
  simp only [Proofs.opened]
  omega

theorem Tracked.current_mem (h : Tracked b.toLedger) {r : AllocRec} (hr : r ∈ current b) :
    0 ≤ b.curr ∧ r ∈ allRecords b.toLedger := by
  have hlow := h.low
  have hcurr : 0 ≤ b.curr := by
    by_contra hneg
    have hnone : current b = [] := h.above _ (by omega)
    rw [hnone] at hr
    cases hr
  exact ⟨hcurr, mem_allRecords.mpr ⟨b.curr.toNat, by omega, hr⟩⟩

theorem booted_tracked (table : FileTable) (opts : List Opt) (mem : Nat → UInt8)
    (gen : γ) : Tracked (view (booted table opts mem gen)).book.toLedger :=
  ⟨Int.le_refl _, (by decide : (-1 : Int) ≤ maxAlloc), fun _ _ => rfl⟩

theorem run_tracked (w : World γ) (table : FileTable) (opts : List Opt) (mem : Nat → UInt8)
    (gen : γ) (n : Nat) : Tracked (run w table opts mem gen n).st.toLedger :=
  run_invariant w table opts mem gen (I := fun v => Tracked v.book.toLedger)
    (booted_tracked table opts mem gen) (fun _ _ _ _ h hm => h.move hm.ledger) n

/-- Every size of the table is a positive multiple of the page size. -/
def PageTable (table : FileTable) : Prop := ∀ c ∈ table.classes, 0 < c.1 ∧ pageSize ∣ c.1

/-- The classes keep the sizes of the table. -/
theorem class_of_sizes (h : b.fileLst.map FileClass.size = table.classes.map Prod.fst)
    {c : FileClass} (hc : c ∈ b.fileLst) : ∃ e ∈ table.classes, e.1 = c.size := by
  have hm : c.size ∈ table.classes.map Prod.fst := h ▸ List.mem_map_of_mem hc
  simpa using hm

theorem Settled.class {v : View} (h : Settled table v) {c : FileClass} (hc : c ∈ v.book.fileLst) :
    ∃ e ∈ table.classes, e.1 = c.size :=
  class_of_sizes h.sizes hc

theorem clip_le (byte len : Nat) : clip byte len ≤ len := by
  unfold clip
  split <;> omega

theorem GrantedFor.class {lst : List FileClass} {type : MemType} {len : Nat}
    {node : Option (Nat × Nat)} (h : Granted b lst type len node) :
    ∃ c ∈ b.fileLst, len = clip b.maxAllocPerPhaseByte c.size := by
  cases h with
  | anon asked => exact ⟨_, asked.mem, rfl⟩
  | file _ _ fit => exact ⟨_, List.mem_of_getElem? fit.found, rfl⟩

theorem Budgeted.dvd (h : Budgeted b) : pageSize ∣ b.maxAllocPerPhaseByte := by
  rcases h with ⟨hz, _⟩ | ⟨_, hw⟩
  · exact hz ▸ Nat.dvd_zero _
  · rw [hw]
    simp only [wrap, pageSize]
    omega

/-- Mappings are whole pages and no longer than the largest class. -/
theorem GrantedFor.pages {v : View} (ht : PageTable table) (hs : Settled table v)
    {lst : List FileClass} {type : MemType} {len : Nat} {node : Option (Nat × Nat)}
    (h : Granted v.book lst type len node) :
    0 < len ∧ pageSize ∣ len ∧ ∃ e ∈ table.classes, len ≤ e.1 := by
  obtain ⟨c, hc, rfl⟩ := h.class
  obtain ⟨e, he, hsize⟩ := hs.class hc
  obtain ⟨hpos, hdvd⟩ := ht e he
  rw [hsize] at hpos hdvd
  refine ⟨?_, ?_, e, he, hsize ▸ clip_le _ _⟩
  · unfold clip
    split <;> omega
  · unfold clip
    split
    · exact hs.budget.dvd
    · exact hdvd

/-- Every record is a whole number of pages. -/
def Paged (l : Ledger) (table : FileTable) : Prop :=
  ∀ r ∈ allRecords l, 0 < r.len ∧ pageSize ∣ r.len ∧ ∃ e ∈ table.classes, r.len ≤ e.1

theorem RequestFor.records {anonSlice : Int} {cnt cnt' : Nat} {typ : MemType}
    (h : Request ps b anonSlice cnt typ cnt' l) :
    allRecords l = allRecords b.toLedger ∨
      ∃ lst r node, allRecords l = allRecords b.toLedger ++ [r] ∧
        Chosen b.typeCnt anonSlice r.type ∧ Granted b lst r.type r.len node ∧
        l = taken ps b.toLedger lst r node := by
  cases h with
  | refused => exact .inl rfl
  | served chosen granted _ track _ =>
    exact .inr ⟨_, _, _, allRecords_taken track.1, chosen, granted, rfl⟩

/-- Refusals are counted and never taken back. -/
theorem LedgerMove.refused_le (hm : LedgerMove w b x l) : b.refused ≤ l.refused := by
  cases hm with
  | same => exact Nat.le_refl _
  | phase => exact Nat.le_refl _
  | request request =>
    cases request with
    | refused => exact Nat.le_succ _
    | @served _ _ node => cases node <;> exact Nat.le_refl _
  | aborted aborted => cases aborted <;> exact Nat.le_refl _

theorem LedgerMove.records (ht : Tracked b.toLedger) (hm : LedgerMove w b x l) :
    allRecords l = allRecords b.toLedger ∨
      ∃ lst r node anonSlice, allRecords l = allRecords b.toLedger ++ [r] ∧
        Chosen b.typeCnt anonSlice r.type ∧ Granted b lst r.type r.len node ∧
        l = taken w.pageSize b.toLedger lst r node := by
  cases hm with
  | same => exact .inl rfl
  | phase _ => exact .inl (allRecords_phased ht)
  | request request =>
    rcases request.records with hsame | ⟨lst, r, node, h⟩
    · exact .inl hsame
    · exact .inr ⟨lst, r, node, _, h⟩
  | aborted aborted =>
    cases aborted with
    | early => exact .inl rfl
    | full => exact .inl rfl

theorem run_paged (w : World γ) (ht : PageTable table) (opts : List Opt) (mem : Nat → UInt8)
    (gen : γ) (n : Nat) : Paged (run w table opts mem gen n).st.toLedger table := by
  refine (run_invariant w table opts mem gen
    (I := fun v => Tracked v.book.toLedger ∧ Paged v.book.toLedger table) ?_ ?_ n).2
  · exact ⟨booted_tracked table opts mem gen, fun r hr => by simp [allRecords, view, booted, initial] at hr⟩
  · intro v v' _ hs hq hm
    obtain ⟨htr, hp⟩ := hq
    refine ⟨htr.move hm.ledger, ?_⟩
    rcases hm.ledger.records htr with hsame | ⟨lst, r, node, _, happ, _, hg, _⟩
    · rw [Paged, hsame]
      exact hp
    · rw [Paged, happ]
      intro r' hr'
      rcases List.mem_append.mp hr' with hr' | hr'
      · exact hp r' hr'
      · rw [List.mem_singleton.mp hr']
        exact hg.pages ht hs

end Gobbler.Proofs
