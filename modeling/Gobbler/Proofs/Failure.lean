import Gobbler.Proofs.Script
import Gobbler.Proofs.Tracker

namespace Gobbler.Proofs
open Effect

variable {γ : Type} {w : World γ} {b : Book} {ps : Nat} {anonSlice : Int}

/-- The marks of all file nodes. -/
def marks (l : Ledger) : List (List Int) := l.fileLst.map fun c => c.paths.map FileNode.alloc

/-- What a request that adds no record should leave as it is. -/
structure Untouched (l l' : Ledger) : Prop where
  file : l'.fileCnt = l.fileCnt
  anon : l'.anonCnt = l.anonCnt
  total : l'.totalAllocPages = l.totalAllocPages
  curr : l'.curr = l.curr
  track : l'.allocTrack = l.allocTrack
  marks : marks l' = marks l

/-- On a machine with pages of `ps` bytes, whatever it answers, a request that
adds no record leaves the counters, the tracker, the marks and its count. -/
def FailsCleanly (ps : Nat) (b : Book) (anonSlice : Int) : Prop :=
  ∀ (γ : Type) (w : World γ) (s t : St γ) (cnt : Nat), w.pageSize = ps → s.toBook = b →
    (∀ cnt', randomAllocatorOne w anonSlice cnt s = .ok (.typeMax, cnt') t →
      cnt' = cnt ∧ Untouched b.toLedger t.toLedger) ∧
    (randomAllocatorOne w anonSlice cnt s = .error (.exit "Failed to add new tracker") t →
      Untouched b.toLedger t.toLedger)

/-- The list of the phase has room, or nothing that a request may be granted
has a page of the machine. -/
def NothingCounted (ps : Nat) (b : Book) (anonSlice : Int) : Prop :=
  InTracker b → maxAllocPerSe ≤ (current b).length → b.typeCnt + 1 < 2 ^ 31 →
    ∀ lst type len node, Chosen b.typeCnt anonSlice type → Granted b lst type len node → len < ps

/-- The counters are values of `unsigned long`. -/
structure CountersFit (l : Ledger) : Prop where
  file : l.fileCnt < 2 ^ 64
  anon : l.anonCnt < 2 ^ 64
  total : l.totalAllocPages < 2 ^ 64

theorem marks_searched {l : Ledger} {lst : List FileClass} (h : PoolSearched l.fileLst lst) :
    marks (searched l lst) = marks l := by
  have hmap : ∀ cs : List FileClass, (cs.map fun c => c.paths.map FileNode.alloc) =
      (cs.map FileClass.paths).map fun paths => paths.map FileNode.alloc := by
    intro cs
    rw [List.map_map]
    rfl
  change (lst.map fun c => c.paths.map FileNode.alloc) = _
  rw [marks, hmap, hmap, h.paths]

theorem untouched_searched {l : Ledger} {lst : List FileClass} (h : PoolSearched l.fileLst lst)
    (typeCnt refused : Nat) :
    Untouched l { searched l lst with typeCnt := typeCnt, refused := refused } :=
  ⟨rfl, rfl, rfl, rfl, rfl, marks_searched h⟩

theorem paged_zero {l : Ledger} (h : CountersFit l) (type : MemType) : paged l type 0 = l := by
  have hzero : ∀ {n : Nat}, n < 2 ^ 64 → wrap (n + 0) = n := by
    intro n h
    unfold wrap
    omega
  unfold paged
  rw [hzero h.file, hzero h.anon, hzero h.total, ite_self, ite_self]

/-- A count of less than 2^64 pages that leaves the total counted nothing. -/
theorem wrap_add_eq {n k : Nat} (hk : k < 2 ^ 64) (h : wrap (n + k) = n) : k = 0 := by
  unfold wrap at h
  omega

theorem failsCleanly_of_nothing (hr : Ready b) (hfit : CountersFit b.toLedger)
    (h : NothingCounted ps b anonSlice) : FailsCleanly ps b anonSlice := by
  rintro γ w s t cnt rfl rfl
  have hends := randomAllocatorOne_ends (w := w) hr anonSlice cnt
  refine ⟨fun cnt' hrun => ?_, fun hrun => ?_⟩
  · obtain ⟨l, hreq, ht⟩ := hends.ok hrun
    rw [ht.ledger]
    obtain ⟨hcnt, lst, pool, rfl⟩ := hreq.of_typeMax
    exact ⟨hcnt, untouched_searched pool _ _⟩
  · obtain ⟨l, hab, ht⟩ := hends.error hrun
    rw [ht.ledger]
    cases hab with
    | early _ pool => exact untouched_searched pool _ _
    | @full lst type len node granted room chosen track counter =>
      have hshort := h track room counter _ _ _ _ chosen granted
      have hfit' : CountersFit (searched (counted s.toLedger) lst) :=
        ⟨hfit.file, hfit.anon, hfit.total⟩
      rw [Nat.div_eq_of_lt hshort, paged_zero hfit']
      exact untouched_searched granted.pool _ _

theorem nothing_of_failsCleanly (hps : 0 < ps) (hr : Ready b)
    (hsize : ∀ c ∈ b.fileLst, 0 < c.size ∧ c.size < 2 ^ 64) (h : FailsCleanly ps b anonSlice) :
    NothingCounted ps b anonSlice := by
  intro hin hfull hcnt lst type len node hch hg
  obtain ⟨w, hw, hends⟩ := hg.realised ps 0 hr (fun c hc => (hsize c hc).1) hin hcnt hch
  cases hrun : randomAllocatorOne w anonSlice 0 (unstarted b) with
  | ok r u =>
    obtain ⟨hroom, _⟩ := hends.ok hrun
    exact absurd hroom (Nat.not_lt_of_le hfull)
  | error e u =>
    obtain ⟨rfl, _, lst', hu⟩ := hends.error hrun
    have htotal := ((h _ w _ _ _ hw rfl).2 hrun).total
    rw [hu] at htotal
    have hlen : len < 2 ^ 64 := by
      obtain ⟨c, hc, rfl⟩ := hg.class
      exact Nat.lt_of_le_of_lt (clip_le _ _) (hsize c hc).2
    have hpages : len / ps = 0 :=
      wrap_add_eq (Nat.lt_of_le_of_lt (Nat.div_le_self _ _) hlen) htotal
    exact (Nat.div_eq_zero_iff_lt hps).mp hpages

/-- A request fails cleanly, on every machine with pages of `ps` bytes, just
when the list of the phase has room or nothing it may be granted has a page. -/
theorem failure_clean (hps : 0 < ps) (hr : Ready b)
    (hsize : ∀ c ∈ b.fileLst, 0 < c.size ∧ c.size < 2 ^ 64) (hfit : CountersFit b.toLedger)
    (anonSlice : Int) : FailsCleanly ps b anonSlice ↔ NothingCounted ps b anonSlice :=
  ⟨nothing_of_failsCleanly hps hr hsize, failsCleanly_of_nothing hr hfit⟩

/-- The start of the first transition of a run with `-M 501`. -/
def fullStart : St Unit := (run plainWorld oneTable [.M 501, .e 1, .t 0] (fun _ => 0) () 2).st

/-- The books after 500 requests of that transition, each served with one page. -/
def fullBook : Book :=
  { fullStart.toBook with
    fileLst := [⟨4096, List.replicate 376 ⟨1, "a"⟩ ++ List.replicate 125 ⟨0, "a"⟩, 0⟩]
    allocTrack := Function.update (fun _ => []) 0
      ((List.range 500).map fun k => ⟨1048576 * (k + 1), 4096, countedType k⟩)
    typeCnt := 500
    fileCnt := 376
    anonCnt := 124
    totalAllocPages := 500 }

theorem failure_clean_full : FailsCleanly 4096 fullBook (-1) ↔ NothingCounted 4096 fullBook (-1) :=
  failure_clean (by decide) ⟨by decide +kernel, by decide +kernel⟩ (by decide +kernel)
    ⟨by decide +kernel, by decide +kernel, by decide +kernel⟩ (-1)

/-- The full list refuses the record of a page that was counted. -/
theorem failure_counted : ¬FailsCleanly 4096 fullBook (-1) := by
  intro h
  let s : St Unit := { fullStart with toBook := fullBook }
  have hleft : (match randomAllocatorOne plainWorld (-1) 1 s with
      | .ok _ _ => none
      | .error e t => some (e, t.totalAllocPages)) = some (.exit "Failed to add new tracker", 501) := by
    decide +kernel
  cases hrun : randomAllocatorOne plainWorld (-1) 1 s with
  | ok r t =>
    rw [hrun] at hleft
    cases hleft
  | error e t =>
    rw [hrun] at hleft
    obtain ⟨rfl, htotal⟩ := Prod.mk.inj (Option.some.inj hleft)
    have hsame := ((h Unit plainWorld s t 1 rfl rfl).2 hrun).total
    rw [htotal] at hsame
    exact absurd hsame (by decide +kernel)

end Gobbler.Proofs
