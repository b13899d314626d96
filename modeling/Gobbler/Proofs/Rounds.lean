import Gobbler.Proofs.Contents
import Gobbler.Proofs.Holding
import Gobbler.Proofs.Inside
import Gobbler.Proofs.Repeat
import Gobbler.Proofs.Units

namespace Gobbler.Proofs
open Effect Sweep

variable {γ : Type} {w : World γ} {table : FileTable} {opts : List Opt} {mem : Nat → UInt8} {gen : γ}

/-- The offsets that an access pattern without chance touches, in their order. -/
def touchOffsets (accessType len : Nat) : List Nat :=
  match accessType with
  | 1 => strides 0 len (len / strideCut)
  | 2 => List.range len
  | _ => (List.replicate (repeatGetCount (len / strideCut)) (List.range (len / strideCut))).flatten

/-- A record long enough for a stride of its own, and short enough not to wrap. -/
structure FitsStride (r : AllocRec) : Prop where
  long : strideCut ≤ r.len
  short : r.len < 2 ^ 63

/-- The bytes that a touch of the record writes. -/
def touchedBytes (accessType : Nat) (r : AllocRec) : List Nat :=
  (touchOffsets accessType r.len).map (r.addr + ·)

theorem strides_shift (addr len stride : Nat) :
    (strides 0 len stride).map (addr + ·) = strides addr len stride := by
  simp [strides]

theorem patternStride_visits {addr len : Nat} (hlong : strideCut ≤ len) (hshort : len < 2 ^ 63) :
    Performs Visits (strides addr len (len / strideCut)) (patternStride addr len : M γ PUnit) := by
  have hpos : 1 ≤ len / strideCut := Nat.div_pos hlong (by decide)
  have hroom : len + len / strideCut ≤ 2 ^ 64 := by
    simp only [strideCut]
    omega
  have hloop : Performs Visits (strides (addr + 0) (len - 0) (len / strideCut))
      (patternStrideLoop addr len (len / strideCut) (len + 1) 0 : M γ PUnit) :=
    patternStrideLoop_visits hpos hroom (len + 1) 0 (by omega)
  rw [Nat.add_zero, Nat.sub_zero] at hloop
  apply performs_of_ends
  intro s
  unfold patternStride
  apply (strideGetOffset_long hlong s).bind
  rintro _ t ⟨ht, rfl⟩
  apply (hloop.ends t).imp
  intro _ u hu
  exact ht.append hu

/-- An access pattern without chance. -/
def Plain (accessType : Nat) : Prop := 1 ≤ accessType ∧ accessType ≤ 3

theorem pattern_visits {k : Nat} (hk : Plain k) {r : AllocRec} (hr : FitsStride r) :
    Performs Visits (touchedBytes k r) (pattern w k r.addr r.len) := by
  unfold Plain at hk
  unfold touchedBytes
  match k, hk with
  | 1, _ =>
    have h : Performs Visits (strides r.addr r.len (r.len / strideCut))
        (patternStride r.addr r.len : M γ PUnit) := patternStride_visits hr.long hr.short
    rwa [← strides_shift] at h
  | 2, _ => exact touchAll_visits r.addr r.len
  | 3, _ =>
    have hbytes : (touchOffsets 3 r.len).map (r.addr + ·) =
        (List.replicate (repeatGetCount (r.len / strideCut))
          ((List.range (r.len / strideCut)).map (r.addr + ·))).flatten := by
      simp [touchOffsets]
    rw [hbytes]
    exact patternRepeat_visits hr.long r.addr

/-- What a holding state finds: its access pattern and the records of its phase. -/
structure Resting (k : Nat) (rs : List AllocRec) (s : St γ) : Prop where
  access : s.accessType = k
  track : InTracker s.toBook
  records : current s.toBook = rs

/-- The bytes that a touch of record `j` writes. -/
def recordBytes (k : Nat) (rs : List AllocRec) (j : Nat) : List Nat :=
  (rs[j]?).elim [] (touchedBytes k)

theorem touch_visits {k : Nat} (hk : Plain k) {rs : List AllocRec} (hrs : ∀ r ∈ rs, FitsStride r)
    {s : St γ} (hs : Resting k rs s) (j : Nat) :
    Ends (touch w j) s (fun _ t => Visits (recordBytes k rs j) s t) fun _ _ => False := by
  unfold touch
  rw [ends_bind, ends_get, if_pos hs.track.1, ends_bind, Ends, currTrack_ok hs.track]
  simp only [hs.records, hs.access, recordBytes]
  cases hj : rs[j]? with
  | none => exact Visits.refl s
  | some r => exact (pattern_visits hk (hrs r (List.mem_of_getElem? hj))).ends s

theorem visit_visits {k : Nat} (hk : Plain k) {rs : List AllocRec} (hrs : ∀ r ∈ rs, FitsStride r)
    {s : St γ} (hs : Resting k rs s) (i : Nat) :
    Ends (visit w rs.length i) s
      (fun _ t => Visits (swept (recordBytes k rs) rs.length i) s t) fun _ _ => False := by
  unfold visit swept
  cases visited rs.length i with
  | none => exact Visits.refl s
  | some j => exact touch_visits hk hrs hs j

/-- The bytes that the first `i` passes of a holding state write. -/
def passBytes (k : Nat) (rs : List AllocRec) (i : Nat) : List Nat :=
  (List.range i).flatMap (swept (recordBytes k rs) rs.length)

theorem passBytes_succ (k : Nat) (rs : List AllocRec) (i : Nat) :
    passBytes k rs (i + 1) = passBytes k rs i ++ swept (recordBytes k rs) rs.length i := by
  rw [passBytes, List.range_succ, List.flatMap_append, List.flatMap_singleton, passBytes]

/-- A holding state that wrote the bytes at `as` and kept its records. -/
structure HeldWith (k : Nat) (rs : List AllocRec) (as : List Nat) (s t : St γ) : Prop where
  resting : Resting k rs t
  curr : t.curr = s.curr
  writes : t.writes = (as.map fun a => (s.curr, a)).reverse ++ s.writes

theorem Resting.visits {k : Nat} {rs : List AllocRec} {as : List Nat} {s t : St γ}
    (h : Resting k rs s) (hv : Visits as s t) : Resting k rs t := by
  have hbook : t.toBook = s.toBook := hv.book
  refine ⟨(congrArg (fun b : Book => b.accessType) hbook).trans h.access, ?_,
    (congrArg current hbook).trans h.records⟩
  have hin := h.track
  rw [← hbook] at hin
  exact hin

theorem HeldWith.visits {k : Nat} {rs : List AllocRec} {as bs : List Nat} {s t u : St γ} {num : List Int}
    (h : HeldWith k rs as s t) (hv : Visits bs t u) : HeldWith k rs (as ++ bs) s (ticked u num) := by
  have hu := h.resting.visits hv
  refine ⟨⟨hu.access, hu.track, hu.records⟩, hv.curr.trans h.curr, ?_⟩
  change u.writes = _
  rw [hv.writes, h.writes, h.curr, List.map_append, List.reverse_append, List.append_assoc]

section looping

variable {k : Nat} {rs : List AllocRec} {e start : ℚ} {t : Granularity} {l : HoldLocals} {m : Machine γ}

/-- A touch without chance comes to its end, so that only the clock ends the holding state. -/
theorem Looping.goes_on (hk : Plain k) (hrs : ∀ r ∈ rs, FitsStride r) {i : Nat}
    (h : Looping w e t rs.length start i l m) (hs : Resting k rs m.st) (hleft : l.run < l.execTime) :
    ∃ u num, Visits (swept (recordBytes k rs) rs.length i) m.st u ∧ (step w m).st = ticked u num ∧
      ∃ l', Looping w e t rs.length start (i + 1) l' (step w m) := by
  obtain ⟨_, u, _, ⟨num, hst, hnext⟩, hv⟩ :=
    ((h.pass hleft).and (visit_visits hk hrs hs i)).returns fun _ _ he => he.2
  exact ⟨u, num, hv, hst, hnext⟩

/-- The writes of a holding state are those of its passes, one after the other. -/
theorem looping_trace (hk : Plain k) (hrs : ∀ r ∈ rs, FitsStride r)
    (h : Looping w e t rs.length start 0 l m) (hs : Resting k rs m.st) (i : Nat)
    (hin : ∀ j, j ≤ i → inHolding ((step w)^[j] m).pc = true) :
    HeldWith k rs (passBytes k rs i) m.st ((step w)^[i] m).st := by
  induction i with
  | zero => exact ⟨hs, rfl, rfl⟩
  | succ i ih =>
    have hi := ih fun j hj => hin j (Nat.le_succ_of_le hj)
    obtain ⟨l', hl, _⟩ := h.later i fun j hj => hin j (Nat.le_succ_of_le hj)
    have hnext := hin (i + 1) (Nat.le_refl _)
    rw [Function.iterate_succ_apply'] at hnext ⊢
    have hleft : l'.run < l'.execTime := by
      by_contra hover
      rw [hl.over (not_lt.mp hover)] at hnext
      cases hnext
    obtain ⟨u, num, hv, hst, _⟩ := hl.goes_on hk hrs hi.resting hleft
    rw [hst, passBytes_succ]
    exact hi.visits hv

/-- By a clock that stands still a holding state has no end. -/
theorem looping_forever (hk : Plain k) (hrs : ∀ r ∈ rs, FitsStride r)
    (h : Looping w e t rs.length start 0 l m) (hs : Resting k rs m.st)
    (hclock : ∀ n, cpuTime w t n - start < e) (i : Nat) :
    (∃ l', Looping w e t rs.length start i l' ((step w)^[i] m)) ∧
      HeldWith k rs (passBytes k rs i) m.st ((step w)^[i] m).st := by
  induction i with
  | zero => exact ⟨⟨l, h⟩, hs, rfl, rfl⟩
  | succ i ih =>
    obtain ⟨⟨l', hl⟩, hheld⟩ := ih
    have hleft : l'.run < l'.execTime := by
      rw [hl.elapsed, hl.time]
      exact hclock _
    obtain ⟨u, num, hv, hst, hnext⟩ := hl.goes_on hk hrs hheld.resting hleft
    rw [Function.iterate_succ_apply']
    refine ⟨hnext, ?_⟩
    rw [hst, passBytes_succ]
    exact hheld.visits hv

end looping

/-- After the options, every byte is changed as often as it is written. -/
theorem run_toggles (w : World γ) (table : FileTable) (opts : List Opt) (mem : Nat → UInt8) (gen : γ)
    (n i : Nat) : TogglesIfSet (run w table opts mem gen (n + 1)).st
      (run w table opts mem gen (n + 1 + i)).st := by
  induction i with
  | zero => exact refl_of TogglesIfSet _
  | succ i ih =>
    have hboot : ∀ os, (run w table opts mem gen (n + 1 + i)).pc ≠ .boot os := by
      rw [show n + 1 + i = n + i + 1 by omega]
      exact fun os => (run_turned w table opts mem gen (n + i)).move.booted os
    have hstep : TogglesIfSet (run w table opts mem gen (n + 1 + i)).st
        (step w (run w table opts mem gen (n + 1 + i))).st :=
      step_yields (fun _ _ hu => hu.toggles.ifSet) touch_toggles hboot
    rw [← Nat.add_assoc, run_succ w table opts mem gen (n + 1 + i)]
    exact trans_of TogglesIfSet ih hstep

/-- The bytes of a holding state after the writes at `as`. -/
theorem HeldWith.bytes {k : Nat} {rs : List AllocRec} {as : List Nat} {s t : St γ}
    (h : HeldWith k rs as s t) (ht : Toggles s t) (a : Nat) :
    t.mem a = toggled^[as.count a] (s.mem a) := by
  have hcount : timesWritten t a = as.count a + timesWritten s a := by
    rw [timesWritten, h.writes, List.countP_append, List.countP_reverse, List.countP_map, timesWritten,
      List.count_eq_countP]
    rfl
  rw [ht.mem, hcount, Nat.add_sub_cancel]

theorem run_fitsStride (ht : PageTable table) (hshort : ∀ c ∈ table.classes, c.1 < 2 ^ 63) (n : Nat) :
    ∀ r ∈ current (run w table opts mem gen n).st.toBook, FitsStride r := by
  intro r hr
  obtain ⟨_, hmem⟩ := (run_tracked w table opts mem gen n).current_mem hr
  obtain ⟨hpos, hdvd, c, hc, hle⟩ := run_paged w ht opts mem gen n r hmem
  exact ⟨page_le hpos hdvd, Nat.lt_of_le_of_lt hle (hshort c hc)⟩

theorem run_heldWith (ht : PageTable table) (hshort : ∀ c ∈ table.classes, c.1 < 2 ^ 63) {n i : Nat}
    (htrans : inTransition (run w table opts mem gen n).pc = true)
    (hhold : ∀ j, j ≤ i → inHolding (run w table opts mem gen (n + 1 + j)).pc = true)
    (hk : Plain (run w table opts mem gen (n + 1)).st.accessType) :
    let s := (run w table opts mem gen (n + 1)).st
    HeldWith s.accessType (current s.toBook) (passBytes s.accessType (current s.toBook) i) s
      (run w table opts mem gen (n + 1 + i)).st := by
  intro s
  obtain ⟨e, t, l, hpc⟩ := inTransition_iff.mp htrans
  obtain ⟨l', hpc'⟩ := inHolding_iff.mp (hhold 0 (Nat.zero_le i))
  obtain ⟨s', hs'⟩ := step_enters (w := w) hpc (run_succ w table opts mem gen n ▸ hpc')
  rw [← run_succ] at hs'
  have hstart := looping_start hs'
  have hm : ∀ j, (step w)^[j] ⟨s, .hold l'⟩ = run w table opts mem gen (n + 1 + j) := by
    intro j
    rw [← hpc']
    change (step w)^[j] (run w table opts mem gen (n + 1)) = _
    rw [← run_add, Nat.add_comm j]
  have hin : ∀ j, j ≤ i → inHolding ((step w)^[j] ⟨s, .hold l'⟩).pc = true := by
    intro j hj
    rw [hm]
    exact hhold j hj
  rw [← hm i]
  exact looping_trace hk (run_fitsStride ht hshort (n + 1)) hstart ⟨rfl, hstart.track, rfl⟩ i hin

/-- A holding state with one of the access patterns without chance writes, pass
by pass and with nothing left out or added, the bytes that the pattern names. -/
theorem holding_trace (w : World γ) (table : FileTable) (ht : PageTable table)
    (hshort : ∀ c ∈ table.classes, c.1 < 2 ^ 63) (opts : List Opt) (mem : Nat → UInt8) (gen : γ)
    (n i : Nat) (htrans : inTransition (run w table opts mem gen n).pc = true)
    (hhold : ∀ j, j ≤ i → inHolding (run w table opts mem gen (n + 1 + j)).pc = true)
    (hk : Plain (run w table opts mem gen (n + 1)).st.accessType) :
    let s := (run w table opts mem gen (n + 1)).st
    let t := (run w table opts mem gen (n + 1 + i)).st
    let bytes := passBytes s.accessType (current s.toBook) i
    t.writes = (bytes.map fun a => (s.curr, a)).reverse ++ s.writes ∧
      ∀ a, t.mem a = toggled^[bytes.count a] (s.mem a) := by
  have hheld := run_heldWith ht hshort htrans hhold hk
  have hset : (run w table opts mem gen (n + 1)).st.accessType ≠ 0 := Nat.ne_of_gt hk.1
  exact ⟨hheld.writes, hheld.bytes ((run_toggles w table opts mem gen n i).toggles hset)⟩

/-- A whole round of passes touches the records from the last to the first. -/
theorem passBytes_rounds (k : Nat) (rs : List AllocRec) (m : Nat) :
    passBytes k rs (m * (rs.length + 1)) =
      (List.replicate m (rs.reverse.flatMap (touchedBytes k))).flatten := by
  have hrecords : (List.range rs.length).map (recordBytes k rs) = rs.map (touchedBytes k) := by
    apply List.ext_getElem
    · simp
    · intro j hj _
      have hlt : j < rs.length := by simpa using hj
      simp [recordBytes, hlt]
  rw [passBytes, flatMap_sweeps, List.flatMap_def, List.map_reverse, hrecords, ← List.map_reverse,
    ← List.flatMap_def]

theorem mem_touchedBytes {r : AllocRec} {a : Nat} : a ∈ touchedBytes 2 r ↔ a ∈ region r := by
  simp only [touchedBytes, touchOffsets, List.mem_map, List.mem_range, region, Set.mem_Ico]
  constructor
  · rintro ⟨i, hi, rfl⟩
    omega
  · intro ha
    exact ⟨a - r.addr, by omega, by omega⟩

theorem touchedBytes_nodup (r : AllocRec) : (touchedBytes 2 r).Nodup :=
  List.nodup_range.map fun _ _ => Nat.add_left_cancel

/-- The sequential pattern touches each byte of the phase once. -/
theorem phaseBytes_nodup {rs : List AllocRec} (h : Regions.Apart region rs) :
    (rs.reverse.flatMap (touchedBytes 2)).Nodup := by
  rw [((List.reverse_perm rs).flatMap_right _).nodup_iff, List.nodup_flatMap]
  refine ⟨fun r _ => touchedBytes_nodup r, h.imp fun {r r'} hd => ?_⟩
  intro a ha ha'
  exact Set.disjoint_left.mp hd (mem_touchedBytes.mp ha) (mem_touchedBytes.mp ha')

theorem current_apart {b : Book} (hc : 0 ≤ b.curr) (h : Placed b.toLedger) :
    Regions.Apart region (current b) := by
  have hall := h.apart
  rw [allRecords_succ hc] at hall
  exact (List.pairwise_append.mp hall).2.1

theorem count_rounds (rs : List AllocRec) (m a : Nat) :
    (passBytes 2 rs (m * (rs.length + 1))).count a =
      m * (rs.reverse.flatMap (touchedBytes 2)).count a := by
  rw [passBytes_rounds, List.count_flatten, List.map_replicate, List.sum_replicate, smul_eq_mul]

/-- After `m` whole rounds of a holding state with the sequential pattern every
byte of the phase was changed `m` times, and no other byte was. -/
theorem sequential_rounds (w : World γ) (table : FileTable) (ht : PageTable table)
    (hshort : ∀ c ∈ table.classes, c.1 < 2 ^ 63) (opts : List Opt) (mem : Nat → UInt8) (gen : γ)
    (n m : Nat) (htrans : inTransition (run w table opts mem gen n).pc = true)
    (hplaced : Placed (run w table opts mem gen (n + 1)).st.toLedger)
    (hhold : ∀ j, j ≤ m * ((current (run w table opts mem gen (n + 1)).st.toBook).length + 1) →
      inHolding (run w table opts mem gen (n + 1 + j)).pc = true)
    (hseq : (run w table opts mem gen (n + 1)).st.accessType = 2) :
    let s := (run w table opts mem gen (n + 1)).st
    let t := (run w table opts mem gen (n + 1 + m * ((current s.toBook).length + 1))).st
    (∀ r ∈ current s.toBook, ∀ a ∈ region r, t.mem a = toggled^[m] (s.mem a)) ∧
      ∀ a, (∀ r ∈ current s.toBook, a ∉ region r) → t.mem a = s.mem a := by
  intro s t
  have hk : Plain s.accessType := by
    rw [hseq]
    exact ⟨by decide, by decide⟩
  have hheld := run_heldWith ht hshort htrans hhold hk
  have hcurr : t.curr = s.curr := hheld.curr
  have hapart : Regions.Apart region (current s.toBook) :=
    current_apart (hcurr ▸ hheld.resting.track.1) hplaced
  have hmem := hheld.bytes ((run_toggles w table opts mem gen n _).toggles (Nat.ne_of_gt hk.1))
  rw [hseq] at hmem
  refine ⟨fun r hr a ha => ?_, fun a ha => ?_⟩
  · have hin : a ∈ (current s.toBook).reverse.flatMap (touchedBytes 2) :=
      List.mem_flatMap.mpr ⟨r, List.mem_reverse.mpr hr, mem_touchedBytes.mpr ha⟩
    rw [hmem, count_rounds, List.count_eq_one_of_mem (phaseBytes_nodup hapart) hin, Nat.mul_one]
  · have hout : a ∉ (current s.toBook).reverse.flatMap (touchedBytes 2) := by
      intro hin
      obtain ⟨r, hr, hra⟩ := List.mem_flatMap.mp hin
      exact ha r (List.mem_reverse.mp hr) (mem_touchedBytes.mp hra)
    rw [hmem, count_rounds, List.count_eq_zero_of_not_mem hout, Nat.mul_zero]
    rfl

/-- A phase of two pages that is held by a clock that stands still. -/
def pagesRun (accessType : Int) (n : Nat) : Machine Unit :=
  run calmWorld smallTable [.M 2, .e 1, .t accessType] (fun _ => 0) () n

theorem smallTable_page : PageTable smallTable := by
  simp [PageTable, smallTable, pageSize]

theorem smallTable_short : ∀ c ∈ smallTable.classes, c.1 < 2 ^ 63 := by
  simp [smallTable]

theorem pagesRun_holds {accessType : Int} (hk : Plain (pagesRun accessType 5).st.accessType)
    (htrans : inTransition (pagesRun accessType 4).pc = true)
    (hhold : (pagesRun accessType 5).pc = .hold ⟨1, .secs, 0, 0, 2, 0⟩) (i : Nat) :
    inHolding (pagesRun accessType (4 + 1 + i)).pc = true := by
  obtain ⟨e, t, l, hpc⟩ := inTransition_iff.mp htrans
  obtain ⟨s', hs'⟩ := step_enters (w := calmWorld) hpc hhold
  have hstart := looping_start hs'
  obtain rfl : 1 = e := hstart.time
  obtain rfl : .secs = t := hstart.unit
  have hclock : ∀ n, cpuTime calmWorld .secs n - 0 < 1 := by
    intro n
    rw [cpuTime_secs (show 0 < 2 ^ 63 by decide)]
    norm_num [calmWorld]
  have hrs : ∀ r ∈ current (pagesRun accessType 5).st.toBook, FitsStride r :=
    run_fitsStride smallTable_page smallTable_short 5
  obtain ⟨⟨l', hl⟩, _⟩ := looping_forever hk hrs hstart ⟨rfl, hstart.track, rfl⟩ hclock i
  have hrun : (step calmWorld)^[i] (pagesRun accessType 5) = pagesRun accessType (4 + 1 + i) := by
    rw [Nat.add_comm (4 + 1) i]
    exact (run_add calmWorld smallTable _ _ _ 5 i).symm
  have hfive : pagesRun accessType 5 = ⟨(pagesRun accessType 5).st, .hold ⟨1, .secs, 0, 0, 2, 0⟩⟩ := by
    rw [← hhold]
  rw [← hrun, hfive]
  exact inHolding_iff.mpr ⟨l', hl.pc⟩

theorem holding_trace_pages :
    let s := (pagesRun 3 (4 + 1)).st
    let t := (pagesRun 3 (4 + 1 + 5)).st
    let bytes := passBytes s.accessType (current s.toBook) 5
    t.writes = (bytes.map fun a => (s.curr, a)).reverse ++ s.writes ∧
      ∀ a, t.mem a = toggled^[bytes.count a] (s.mem a) := by
  have hk : Plain (pagesRun 3 5).st.accessType := by
    rw [show (pagesRun 3 5).st.accessType = 3 by decide +kernel]
    exact ⟨by decide, by decide⟩
  exact holding_trace calmWorld smallTable smallTable_page smallTable_short [.M 2, .e 1, .t 3]
    (fun _ => 0) () 4 5 (by decide +kernel)
    (fun j _ => pagesRun_holds hk (by decide +kernel) (by decide +kernel) j) hk

theorem sequential_rounds_pages :
    let m := run calmWorld smallTable [.M 2, .e 1, .t 2] (fun _ => 0) ()
    let s := (m (4 + 1)).st
    let t := (m (4 + 1 + 3 * ((current s.toBook).length + 1))).st
    (∀ r ∈ current s.toBook, ∀ a ∈ region r, t.mem a = toggled^[3] (s.mem a)) ∧
      ∀ a, (∀ r ∈ current s.toBook, a ∉ region r) → t.mem a = s.mem a := by
  have hseq : (pagesRun 2 5).st.accessType = 2 := by decide +kernel
  have hk : Plain (pagesRun 2 5).st.accessType := by
    rw [hseq]
    exact ⟨by decide, by decide⟩
  have hrecords : allRecords (pagesRun 2 5).st.toLedger =
      [⟨1048576, 4096, .file⟩, ⟨2097152, 4096, .file⟩] := by
    decide +kernel
  have hplaced : Placed (pagesRun 2 5).st.toLedger :=
    .of_ascending (by simp [hrecords]) (by simp [hrecords])
  exact sequential_rounds calmWorld smallTable smallTable_page smallTable_short [.M 2, .e 1, .t 2]
    (fun _ => 0) () 4 3 (by decide +kernel) hplaced
    (fun j _ => pagesRun_holds hk (by decide +kernel) (by decide +kernel) j) hseq

end Gobbler.Proofs
