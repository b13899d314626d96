import Gobbler.Lib.Sweep
import Gobbler.Proofs.Progress

namespace Gobbler.Proofs
open Effect Sweep

variable {γ : Type} {w : World γ}

/-- The touch of iteration `k` of a holding state over `n` records. -/
def visit (w : World γ) (n k : Nat) : M γ PUnit :=
  match visited n k with
  | some j => touch w j
  | none => return

/-- The reading of the clock that `m` took last. -/
def lastReading (w : World γ) (t : Granularity) (m : Machine γ) : ℚ :=
  cpuTime w t (m.st.cpuReads - 1)

/-- A holding state of `n` records before its iteration `k`; its clock stood at
`start` when it began. -/
structure Looping (w : World γ) (execTime : ℚ) (t : Granularity) (n : Nat) (start : ℚ) (k : Nat)
    (l : HoldLocals) (m : Machine γ) : Prop where
  pc : m.pc = .hold l
  time : l.execTime = execTime
  unit : l.t = t
  track : InTracker m.st.toBook
  length : (current m.st.toBook).length = n
  index : l.i = cursor n k
  now : l.now = lastReading w t m
  run : l.run = l.now - start

theorem visit_kept (n k : Nat) (s : St γ) :
    Ends (visit w n k) s (fun _ t => Kept s t) (fun _ _ => True) := by
  unfold visit
  cases visited n k with
  | none => exact Kept.refl s
  | some j => exact (touch_ends j s).mono (fun _ _ h => h.kept) fun _ _ _ => trivial

theorem currTrack_ok {s : St γ} (hin : InTracker s.toBook) :
    currTrack s = .ok (current s.toBook) s := by
  have h := currTrack_ends s
  unfold Ends at h
  cases hc : currTrack s with
  | ok lst t =>
    rw [hc] at h
    obtain ⟨rfl, rfl, _⟩ := h
    rfl
  | error e t =>
    rw [hc] at h
    exact absurd hin h.2.2

/-- A touch of a record runs the access pattern on its mapping. -/
theorem touch_record {s : St γ} (hin : InTracker s.toBook) {j : Nat} {r : AllocRec}
    (hr : (current s.toBook)[j]? = some r) :
    touch w j s = pattern w s.accessType r.addr r.len s := by
  have hget : (get : M γ (St γ)) s = .ok s s := rfl
  unfold touch
  rw [bind_ok hget, if_pos hin.1, bind_ok (currTrack_ok hin)]
  simp only [hr]

/-- The branch of `loop_for` on its index follows the sweep. -/
theorem loopForTouch_sweep {n k : Nat} {s : St γ} (hin : InTracker s.toBook)
    (hn : (current s.toBook).length = n) :
    loopForTouch w (cursor n k) s = (do visit w n k; return cursor n (k + 1)) s := by
  unfold loopForTouch visit
  by_cases h : 0 < cursor n k
  · obtain ⟨hv, hnext⟩ := visited_down h
    rw [if_pos h, hv, hnext]
  · obtain ⟨hv, hnext⟩ := visited_top (Nat.eq_zero_of_not_pos h)
    rw [if_neg h, hv, hnext, bind_ok (currTrack_ok hin), hn]
    rfl

/-- The locals of `loop_for` after a pass that took a reading of the clock. -/
def heldOn (l : HoldLocals) (i : Nat) (tmp : Int) (now : ℚ) : HoldLocals :=
  { l with i, tmp, now, run := l.run + (now - l.now) }

/-- The state after the busy loop and a reading of the clock. -/
def ticked (s : St γ) (num : List Int) : St γ :=
  { s with num := num, cpuReads := s.cpuReads + 1 }

/-- A pass of `loop_for` after its touch. -/
theorem loopForPass_touched {l : HoldLocals} {s u : St γ} {i : Nat}
    (hi : loopForTouch w l.i s = .ok i u) :
    ∃ num tmp, loopForPass w l s =
      .ok (heldOn l i tmp (cpuTime w l.t u.cpuReads)) (ticked u num) := by
  unfold loopForPass
  have honce : ∃ j num, loopOnce (l.execTime - l.run) u = .ok j { u with num := num } := by
    unfold loopOnce
    split
    · exact ⟨0, u.num, rfl⟩
    · exact ⟨_, _, rfl⟩
  obtain ⟨j, num, honce⟩ := honce
  refine ⟨num, l.tmp + j, ?_⟩
  rw [bind_ok hi, bind_ok honce]
  rfl

/-- An iteration of the holding state: its touch, the busy loop and a reading of
the clock, or the end that the touch comes to. -/
theorem Looping.pass {execTime start : ℚ} {t : Granularity} {n k : Nat} {l : HoldLocals}
    {m : Machine γ} (h : Looping w execTime t n start k l m) (hleft : l.run < l.execTime) :
    Ends (visit w n k) m.st
      (fun _ u => ∃ num, (step w m).st = ticked u num ∧
        ∃ l', Looping w execTime t n start (k + 1) l' (step w m))
      (fun e u => step w m = ⟨u, .stopped e⟩) := by
  obtain ⟨s, pc⟩ := m
  obtain rfl : pc = .hold l := h.pc
  have hsweep := loopForTouch_sweep (w := w) (k := k) (s := s) h.track h.length
  have hkept := visit_kept (w := w) n k s
  rw [← h.index] at hsweep
  unfold Ends at hkept ⊢
  cases hv : visit w n k s with
  | error e u =>
    rw [bind_error hv] at hsweep
    have hturn : turn w (.hold l) s = .error e u := by
      simp only [turn, if_pos hleft, loopForPass]
      rw [bind_error (bind_error hsweep)]
    simp only [step, hturn]
  | ok _ u =>
    rw [hv] at hkept
    have hbook : u.toBook = s.toBook := hkept.book
    rw [bind_ok hv] at hsweep
    obtain ⟨num, tmp, hpass⟩ := loopForPass_touched hsweep
    have hturn : step w ⟨s, .hold l⟩ =
        ⟨ticked u num, .hold (heldOn l (cursor n (k + 1)) tmp (cpuTime w l.t u.cpuReads))⟩ := by
      have hpc : turn w (.hold l) s =
          .ok (.hold (heldOn l (cursor n (k + 1)) tmp (cpuTime w l.t u.cpuReads))) (ticked u num) := by
        simp only [turn, if_pos hleft]
        rw [bind_ok hpass]
        rfl
      simp only [step, hpc]
    rw [hturn]
    refine ⟨num, rfl, _, rfl, h.time, h.unit, ?_, ?_, rfl, ?_, ?_⟩
    · have hin := h.track
      rw [← hbook] at hin
      exact hin
    · have hlen := h.length
      rw [← hbook] at hlen
      exact hlen
    · rw [← h.unit]
      rfl
    · simp only [heldOn, h.run]
      ring

/-- A holding state whose time is over goes back to `main`. -/
theorem Looping.over {execTime start : ℚ} {t : Granularity} {n k : Nat} {l : HoldLocals}
    {m : Machine γ} (h : Looping w execTime t n start k l m) (hover : l.execTime ≤ l.run) :
    step w m = ⟨{ m.st with phaseCnt := m.st.phaseCnt + 1 }, .main⟩ := by
  obtain ⟨s, pc⟩ := m
  obtain rfl : pc = .hold l := h.pc
  simp only [step, turn, if_neg (not_lt.mpr hover)]
  rfl

/-- The state after one more reading of the CPU clock. -/
def clocked (s : St γ) : St γ := { s with cpuReads := s.cpuReads + 1 }

/-- `loop_for` begins with a reading of the clock, at the top of the list. -/
theorem loopForEnter_ok {s : St γ} (execTime : ℚ) (t : Granularity) (hin : InTracker s.toBook) :
    loopForEnter w execTime t s =
      .ok ⟨execTime, t, cpuTime w t s.cpuReads, 0, (current s.toBook).length, 0⟩ (clocked s) := by
  have htime : cputime w t s = .ok (cpuTime w t s.cpuReads) (clocked s) := rfl
  have htrack : currTrack (clocked s) = .ok (current s.toBook) (clocked s) :=
    currTrack_ok (s := clocked s) hin
  unfold loopForEnter
  rw [bind_ok htime, bind_ok htrack]
  rfl

theorem looping_start {execTime : ℚ} {t : Granularity} {s s' : St γ} {l : HoldLocals}
    (h : loopForEnter w execTime t s = .ok l s') :
    Looping w execTime t (current s'.toBook).length l.now 0 l ⟨s', .hold l⟩ := by
  have hin : Ends (loopForEnter w execTime t) s (fun _ _ => InTracker s.toBook)
      (fun _ _ => True) := by
    unfold loopForEnter
    rw [ends_bind]
    refine (cputime_ends t s).mono ?_ fun _ _ _ => trivial
    rintro now _ ⟨_, rfl⟩
    rw [ends_bind]
    exact (currTrack_ends _).mono (fun _ _ h => h.2.2) fun _ _ _ => trivial
  have htrack := hin.ok h
  rw [loopForEnter_ok execTime t htrack] at h
  cases h
  exact ⟨rfl, rfl, rfl, htrack, rfl, (cursor_zero _).symm, rfl, (sub_self _).symm⟩

/-- The records of the phase and the access type are as before. -/
structure Steady (s t : St γ) : Prop where
  records : current t.toBook = current s.toBook
  access : t.accessType = s.accessType

theorem Kept.steady {s u : St γ} (h : Kept s u) (num : List Int) : Steady s (ticked u num) := by
  have haccess : u.accessType = s.accessType := congrArg (fun b : Book => b.accessType) h.book
  exact ⟨h.current, haccess⟩

section sweep

variable {execTime start : ℚ} {t : Granularity} {n : Nat} {l : HoldLocals} {m : Machine γ}

/-- While its time is not over, a holding state goes on with the sweep or ends the program. -/
theorem Looping.next {k : Nat} (h : Looping w execTime t n start k l m)
    (hleft : l.run < l.execTime) :
    (∃ l', Looping w execTime t n start (k + 1) l' (step w m) ∧ Steady m.st (step w m).st) ∨
      ∃ e, (step w m).pc = .stopped e := by
  have hpass := (h.pass hleft).and (visit_kept n k m.st)
  unfold Ends at hpass
  cases hv : visit w n k m.st with
  | ok _ u =>
    rw [hv] at hpass
    obtain ⟨⟨num, hst, l', hnext⟩, hkept⟩ := hpass
    exact .inl ⟨l', hnext, hst ▸ hkept.steady num⟩
  | error e u =>
    rw [hv] at hpass
    exact .inr ⟨e, by rw [hpass.1]⟩

/-- It is back in `main` just when its time is over. -/
theorem Looping.main_iff {k : Nat} (h : Looping w execTime t n start k l m) :
    (step w m).pc = .main ↔ l.execTime ≤ l.run := by
  refine ⟨fun hmain => ?_, fun hover => by rw [h.over hover]⟩
  by_contra hnot
  obtain ⟨l', hl, _⟩ | ⟨e, hstop⟩ := h.next (not_le.mp hnot)
  · cases hl.pc.symm.trans hmain
  · cases hstop.symm.trans hmain

theorem Looping.elapsed {k : Nat} (h : Looping w execTime t n start k l m) :
    l.run = lastReading w t m - start := h.now ▸ h.run

/-- As long as the program is in the holding state, the sweep goes on. -/
theorem Looping.later (h : Looping w execTime t n start 0 l m) (k : Nat)
    (hin : ∀ j, j ≤ k → inHolding ((step w)^[j] m).pc = true) :
    ∃ l', Looping w execTime t n start k l' ((step w)^[k] m) ∧ Steady m.st ((step w)^[k] m).st ∧
      ∀ j, j < k → lastReading w t ((step w)^[j] m) - start < execTime := by
  induction k with
  | zero => exact ⟨l, h, ⟨rfl, rfl⟩, fun j hj => absurd hj (Nat.not_lt_zero j)⟩
  | succ k ih =>
    obtain ⟨l', hl, hsteady, hbefore⟩ := ih fun j hj => hin j (Nat.le_succ_of_le hj)
    have hnext := hin (k + 1) (Nat.le_refl _)
    rw [Function.iterate_succ_apply'] at hnext ⊢
    by_cases hover : l'.execTime ≤ l'.run
    · rw [hl.over hover] at hnext
      cases hnext
    · have hleft : l'.run < l'.execTime := not_le.mp hover
      obtain ⟨l'', hl', hnow⟩ | ⟨e, hstop⟩ := hl.next hleft
      · refine ⟨l'', hl', ⟨hnow.records.trans hsteady.records, hnow.access.trans hsteady.access⟩,
          fun j hj => ?_⟩
        by_cases hjk : j = k
        · rw [hjk, ← hl.elapsed, ← hl.time]
          exact hleft
        · exact hbefore j (by omega)
      · rw [hstop] at hnext
        cases hnext

end sweep

/-- `loop_for` runs until the clock has advanced by its execution time. Its
iterations run the access pattern on the records of the phase from the last to
the first, over and over, and an iteration between the rounds touches nothing. -/
theorem holding_loop (w : World γ) (execTime : ℚ) (t : Granularity) (s s' : St γ) (l : HoldLocals)
    (h : loopForEnter w execTime t s = .ok l s') :
    let m := fun k => (step w)^[k] ⟨s', .hold l⟩
    let n := (current s'.toBook).length
    let c := fun k => lastReading w t (m k)
    (∀ k, (∀ j, j ≤ k → inHolding (m j).pc = true) →
      (execTime ≤ c k - c 0 → m (k + 1) = ⟨{ (m k).st with phaseCnt := (m k).st.phaseCnt + 1 }, .main⟩) ∧
      (c k - c 0 < execTime →
        (∀ j, visited n k = some j → ∃ r, (current s'.toBook)[j]? = some r ∧
          Ends (pattern w s'.accessType r.addr r.len) (m k).st
            (fun _ u => inHolding (m (k + 1)).pc = true ∧ ∃ num, (m (k + 1)).st = ticked u num)
            (fun e u => m (k + 1) = ⟨u, .stopped e⟩)) ∧
        (visited n k = none → inHolding (m (k + 1)).pc = true ∧
          ∃ num, (m (k + 1)).st = ticked (m k).st num))) ∧
    (∀ k, (∀ j, j ≤ k → inHolding (m j).pc = true) → (m (k + 1)).pc = .main →
      IsLeast { i | execTime ≤ c i - c 0 } k) ∧
    ∀ first j, j < n → ∃! k, (first ≤ k ∧ k < first + (n + 1)) ∧ visited n k = some j := by
  intro m n c
  have hstart := looping_start h
  have hzero : c 0 = l.now := hstart.now.symm
  have hsucc : ∀ k, m (k + 1) = step w (m k) := fun k => Function.iterate_succ_apply' _ _ _
  refine ⟨fun k hin => ?_, fun k hin hmain => ?_, fun first j hj => visited_window hj first⟩
  · obtain ⟨l', hl, hsteady, _⟩ := hstart.later k hin
    have hrun : l'.run = c k - c 0 := hl.elapsed.trans (by rw [hzero])
    rw [hsucc]
    refine ⟨fun hover => hl.over ?_, fun hleft => ?_⟩
    · rw [hrun, hl.time]
      exact hover
    · rw [← hrun, ← hl.time] at hleft
      have hpass : Ends (visit w n k) (m k).st
          (fun _ u => inHolding (step w (m k)).pc = true ∧ ∃ num, (step w (m k)).st = ticked u num)
          (fun e u => step w (m k) = ⟨u, .stopped e⟩) := by
        apply (hl.pass hleft).imp
        rintro _ u ⟨num, hst, l'', hl'⟩
        exact ⟨inHolding_iff.mpr ⟨l'', hl'.pc⟩, num, hst⟩
      refine ⟨fun j hj => ?_, fun hnone => ?_⟩
      · have hlt : j < (current s'.toBook).length := visited_lt hj
        have hr : (current s'.toBook)[j]? = some (current s'.toBook)[j] := List.getElem?_eq_getElem hlt
        refine ⟨_, hr, ?_⟩
        have hnow : (current (m k).st.toBook)[j]? = some (current s'.toBook)[j] := by
          rw [hsteady.records]
          exact hr
        have htouch := touch_record (w := w) hl.track hnow
        rw [hsteady.access] at htouch
        simp only [visit, hj] at hpass
        exact (ends_congr htouch).mp hpass
      · simpa only [visit, hnone, ends_pure] using hpass
  obtain ⟨l', hl, _, hbefore⟩ := hstart.later k hin
  refine ⟨?_, fun i hi => ?_⟩
  · rw [hsucc] at hmain
    have hover := hl.main_iff.mp hmain
    rw [hl.elapsed, hl.time, ← hzero] at hover
    exact hover
  · by_contra hlt
    have hearly := hbefore i (not_le.mp hlt)
    rw [← hzero] at hearly
    exact absurd hi (not_le.mpr hearly)

/-- A first phase of two records. -/
def twoRecords : St Unit :=
  { initial smallTable (fun _ => 0) () with
    curr := 0
    allocTrack := fun _ => [⟨1048576, 4096, .file⟩, ⟨2097152, 8192, .anon⟩] }

theorem holding_loop_two :
    let m := fun k => (step plainWorld)^[k] ⟨clocked twoRecords, .hold ⟨3, .secs, 0, 0, 2, 0⟩⟩
    let c := fun k => lastReading plainWorld .secs (m k)
    (∀ k, (∀ j, j ≤ k → inHolding (m j).pc = true) →
      (3 ≤ c k - c 0 → m (k + 1) = ⟨{ (m k).st with phaseCnt := (m k).st.phaseCnt + 1 }, .main⟩) ∧
      (c k - c 0 < 3 →
        (∀ j, visited 2 k = some j → ∃ r, (current twoRecords.toBook)[j]? = some r ∧
          Ends (pattern plainWorld 4 r.addr r.len) (m k).st
            (fun _ u => inHolding (m (k + 1)).pc = true ∧ ∃ num, (m (k + 1)).st = ticked u num)
            (fun e u => m (k + 1) = ⟨u, .stopped e⟩)) ∧
        (visited 2 k = none → inHolding (m (k + 1)).pc = true ∧
          ∃ num, (m (k + 1)).st = ticked (m k).st num))) ∧
    (∀ k, (∀ j, j ≤ k → inHolding (m j).pc = true) → (m (k + 1)).pc = .main →
      IsLeast { i | 3 ≤ c i - c 0 } k) ∧
    ∀ first j, j < 2 → ∃! k, (first ≤ k ∧ k < first + (2 + 1)) ∧ visited 2 k = some j := by
  have hzero : cpuTime plainWorld .secs twoRecords.cpuReads = 0 := by decide +kernel
  have hstart := loopForEnter_ok (w := plainWorld) (s := twoRecords) 3 .secs ⟨by decide, by decide⟩
  rw [hzero] at hstart
  exact holding_loop plainWorld 3 .secs twoRecords (clocked twoRecords) ⟨3, .secs, 0, 0, 2, 0⟩ hstart

end Gobbler.Proofs
