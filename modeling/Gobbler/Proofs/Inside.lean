import Gobbler.Lib.Regions
import Gobbler.Proofs.Records

namespace Gobbler.Proofs
open Regions

variable {γ : Type} {w : World γ} {table : FileTable} {opts : List Opt} {mem : Nat → UInt8}
  {gen : γ} {b : Book} {l : Ledger} {x : Option Halt}

/-- The bytes of a mapping. -/
def region (r : AllocRec) : Set Nat := Set.Ico r.addr (r.addr + r.len)

/-- The system gave every mapping a place of its own, and none is of 2^63 bytes or more. -/
structure Placed (l : Ledger) : Prop where
  apart : Apart region (allRecords l)
  short : ∀ r ∈ allRecords l, r.len < 2 ^ 63

/-- Every location of the fix pattern lies inside a mapping. -/
def FixPlaced (s : St γ) : Prop :=
  ∀ node ∈ s.fixHead, ∃ r ∈ allRecords s.toLedger, node.addr = r.addr ∧ node.loc < r.len

/-- Phases are only added to, and records only appended. -/
structure Extends (l l' : Ledger) : Prop where
  curr : l.curr ≤ l'.curr
  records : ∀ i : Nat, ∀ r ∈ l.allocTrack i, r ∈ l'.allocTrack i

theorem Extends.refl (l : Ledger) : Extends l l := ⟨Int.le_refl _, fun _ _ h => h⟩

theorem Extends.trans {l l' l'' : Ledger} (h : Extends l l') (h' : Extends l' l'') : Extends l l'' :=
  ⟨Int.le_trans h.curr h'.curr, fun i r hr => h'.records i r (h.records i r hr)⟩

theorem Extends.record {l l' : Ledger} (h : Extends l l') {r : AllocRec} (hr : r ∈ allRecords l) :
    r ∈ allRecords l' := by
  obtain ⟨i, hi, hr⟩ := mem_allRecords.mp hr
  exact mem_allRecords.mpr ⟨i, Int.le_trans hi h.curr, h.records i r hr⟩

theorem LedgerMove.extends (hm : LedgerMove w b x l) : Extends b.toLedger l := by
  cases hm with
  | same => exact .refl _
  | phase _ => exact ⟨Int.le_add_one (Int.le_refl _), fun _ _ h => h⟩
  | request request =>
    cases request with
    | refused => exact ⟨Int.le_refl _, fun _ _ h => h⟩
    | @served lst r node _ _ _ _ _ =>
      obtain ⟨ht, hc⟩ := marked_track
        (paged (recorded (searched (counted b.toLedger) lst) r) r.type (r.len / w.pageSize)) node
      refine ⟨le_of_eq hc.symm, fun i r' hr' => ?_⟩
      rw [taken, ht]
      by_cases hi : i = b.curr.toNat
      · subst hi
        change r' ∈ Function.update b.allocTrack b.curr.toNat (b.allocTrack b.curr.toNat ++ [r]) _
        rw [Function.update_self]
        exact List.mem_append_left _ hr'
      · change r' ∈ Function.update b.allocTrack b.curr.toNat (b.allocTrack b.curr.toNat ++ [r]) _
        rwa [Function.update_of_ne hi]
  | aborted aborted => cases aborted <;> exact ⟨Int.le_refl _, fun _ _ h => h⟩

theorem run_extends (w : World γ) (table : FileTable) (opts : List Opt) (mem : Nat → UInt8)
    (gen : γ) (n k : Nat) :
    Extends (run w table opts mem gen n).st.toLedger (run w table opts mem gen (n + k)).st.toLedger :=
  System.along (R := fun s t : Machine γ => Extends s.st.toLedger t.st.toLedger)
    (fun _ => .refl _) .trans (fun i => (run_turned w table opts mem gen i).move.ledger.extends) n k

section run

variable (hps : w.pageSize = pageSize) (ht : PageTable table)
  (hplaced : ∀ n, Placed (run w table opts mem gen n).st.toLedger)

include hps ht hplaced in
theorem run_sized (n : Nat) : Sized w (run w table opts mem gen n).st.toBook := by
  refine ⟨hps, (run_settled w table opts mem gen n).access, fun r hr => ?_⟩
  obtain ⟨_, hmem⟩ := (run_tracked w table opts mem gen n).current_mem hr
  obtain ⟨hpos, hdvd, _⟩ := run_paged w ht opts mem gen n r hmem
  exact ⟨Nat.le_of_dvd hpos hdvd, (hplaced n).short r hmem⟩

include ht hplaced in
/-- Two mappings that begin at one address are the same. -/
theorem run_unique {n : Nat} {r r' : AllocRec}
    (hr : r ∈ allRecords (run w table opts mem gen n).st.toLedger)
    (hr' : r' ∈ allRecords (run w table opts mem gen n).st.toLedger) (ha : r.addr = r'.addr) :
    r = r' := by
  have hpos := (run_paged w ht opts mem gen n r hr).1
  have hpos' := (run_paged w ht opts mem gen n r' hr').1
  refine (hplaced n).apart.unique (x := r.addr) hr hr' ?_ ?_
  · exact ⟨Nat.le_refl _, by omega⟩
  · exact ⟨le_of_eq ha.symm, by omega⟩

include ht hplaced in
theorem FixPlaced.sound {n : Nat} (h : FixPlaced (run w table opts mem gen n).st) :
    FixSound (run w table opts mem gen (n + 1)).st.toBook (run w table opts mem gen n).st.fixHead := by
  have htr := run_tracked w table opts mem gen (n + 1)
  refine ⟨?_, ?_⟩
  · intro r hr r' hr' ha
    exact run_unique ht hplaced (htr.current_mem hr).2 (htr.current_mem hr').2 ha
  · intro r hr node hn ha
    obtain ⟨r', hr', ha', hlt⟩ := h node hn
    have hmem := (run_extends w table opts mem gen n 1).record hr'
    have heq : r' = r := run_unique ht hplaced hmem (htr.current_mem hr).2 (ha'.symm.trans ha)
    exact heq ▸ hlt

theorem FixPlaced.wrote {n : Nat} (h : FixPlaced (run w table opts mem gen n).st)
    (hw : Wrote (run w table opts mem gen n).st (run w table opts mem gen (n + 1)).st) :
    FixPlaced (run w table opts mem gen (n + 1)).st := by
  intro node hn
  rcases hw.fix node hn with hold | ⟨r, hr, hnew⟩
  · obtain ⟨r, hr, hin⟩ := h node hold
    exact ⟨r, (run_extends w table opts mem gen n 1).record hr, hin⟩
  · exact ⟨r, ((run_tracked w table opts mem gen (n + 1)).current_mem hr).2, hnew⟩

include hps ht hplaced in
theorem run_fixPlaced (n : Nat) : FixPlaced (run w table opts mem gen n).st := by
  induction n with
  | zero => exact fun node hn => by cases hn
  | succ n ih =>
    have hsized := run_sized hps ht hplaced (n + 1)
    exact ih.wrote ((run_turned w table opts mem gen n).wrote hsized (ih.sound ht hplaced))

include hps ht hplaced in
/-- Every step writes only inside the mappings of the phase it ends in. -/
theorem run_wrote (n : Nat) :
    Wrote (run w table opts mem gen n).st (run w table opts mem gen (n + 1)).st :=
  (run_turned w table opts mem gen n).wrote (run_sized hps ht hplaced (n + 1))
    ((run_fixPlaced hps ht hplaced n).sound ht hplaced)

include hps ht hplaced in
/-- A byte that no mapping of a current phase holds from now on keeps its value. -/
theorem run_frame {n : Nat} {a : Nat} (k : Nat)
    (hout : ∀ i, i < k → ¬Covered (run w table opts mem gen (n + i + 1)).st.toBook a) :
    (run w table opts mem gen (n + k)).st.mem a = (run w table opts mem gen n).st.mem a := by
  induction k with
  | zero => rfl
  | succ k ih =>
    rw [← ih fun i hi => hout i (Nat.lt_succ_of_lt hi)]
    exact (run_wrote hps ht hplaced (n + k)).mem a (hout k (Nat.lt_succ_self k))

include hplaced in
/-- A byte of an earlier phase lies in no mapping of the current one. -/
theorem not_covered_earlier {n i a : Nat} {r : AllocRec}
    (hi : (i : Int) < (run w table opts mem gen n).st.curr)
    (hr : r ∈ (run w table opts mem gen n).st.allocTrack i) (ha : a ∈ region r) :
    ¬Covered (run w table opts mem gen n).st.toBook a := by
  intro hq
  obtain ⟨r', hr', ha'⟩ := hq
  have heq := (hplaced n).apart.index (i := i) (j := (run w table opts mem gen n).st.curr.toNat)
    (by omega) (by omega) hr hr' ha ha'
  omega

end run

/-- Every byte that a step writes lies in a mapping of the current phase. The
bytes of earlier phases, and those of no mapping, never change again. -/
theorem touch_current_phase (w : World γ) (hps : w.pageSize = 4096) (table : FileTable)
    (ht : PageTable table) (opts : List Opt) (mem : Nat → UInt8) (gen : γ)
    (hplaced : ∀ n, Placed (run w table opts mem gen n).st.toLedger) (n k : Nat) :
    let s := (run w table opts mem gen n).st
    let t := (run w table opts mem gen (n + 1)).st
    let u := (run w table opts mem gen (n + k)).st
    (∀ e ∈ t.writes, e ∈ s.writes ∨
      (e.1 = t.curr ∧ ∃ r ∈ t.allocTrack t.curr.toNat, e.2 ∈ region r)) ∧
    (∀ (i : Nat) r a, i < s.curr → r ∈ s.allocTrack i → a ∈ region r → u.mem a = s.mem a) ∧
    (∀ a, (∀ r ∈ allRecords u.toLedger, a ∉ region r) → u.mem a = s.mem a) := by
  intro s t u
  refine ⟨(run_wrote hps ht hplaced n).writes, ?_, ?_⟩
  · intro i r a hi hr ha
    apply run_frame hps ht hplaced k
    intro j _
    have hext := run_extends w table opts mem gen n (j + 1)
    exact not_covered_earlier hplaced (Int.lt_of_lt_of_le hi hext.curr) (hext.records i r hr) ha
  · intro a hout
    apply run_frame hps ht hplaced k
    intro j hj hq
    obtain ⟨r, hr, ha⟩ := hq
    have hmem := ((run_tracked w table opts mem gen (n + j + 1)).current_mem hr).2
    obtain ⟨d, hd⟩ := Nat.exists_eq_add_of_le (show n + j + 1 ≤ n + k by omega)
    have hext := run_extends w table opts mem gen (n + j + 1) d
    rw [← hd] at hext
    exact hout r (hext.record hmem) ha

/-- Two phases on the plain machine. -/
def twoPhases (n : Nat) : Machine Unit :=
  run plainWorld smallTable [.p 3, .M 2, .e 1, .t 0] (fun _ => 0) () n

theorem Placed.of_ascending {l : Ledger}
    (h : (allRecords l).Pairwise fun r r' => r.addr + r.len ≤ r'.addr)
    (hs : ∀ r ∈ allRecords l, r.len < 2 ^ 63) : Placed l := by
  refine ⟨h.imp fun hle => Set.disjoint_left.mpr fun a ha ha' => ?_, hs⟩
  have hlt := ha.2
  have hge := ha'.1
  omega

theorem twoPhases_placed (n : Nat) : Placed (twoPhases n).st.toLedger := by
  have hall : ∀ k, k < 14 →
      ((allRecords (twoPhases k).st.toLedger).Pairwise fun r r' => r.addr + r.len ≤ r'.addr) ∧
        ∀ r ∈ allRecords (twoPhases k).st.toLedger, r.len < 2 ^ 63 := by
    decide +kernel
  have hstop : halted (twoPhases 13).pc = some .returned := by decide +kernel
  by_cases hn : n < 14
  · exact .of_ascending (hall n hn).1 (hall n hn).2
  · have heq : twoPhases n = twoPhases 13 := run_halted hstop (by omega)
    rw [heq]
    exact .of_ascending (hall 13 (by decide)).1 (hall 13 (by decide)).2

theorem touch_current_phase_two :
    let s := (twoPhases 10).st
    let t := (twoPhases 11).st
    let u := (twoPhases 13).st
    (∀ e ∈ t.writes, e ∈ s.writes ∨
      (e.1 = t.curr ∧ ∃ r ∈ t.allocTrack t.curr.toNat, e.2 ∈ region r)) ∧
    (∀ (i : Nat) r a, i < s.curr → r ∈ s.allocTrack i → a ∈ region r → u.mem a = s.mem a) ∧
    (∀ a, (∀ r ∈ allRecords u.toLedger, a ∉ region r) → u.mem a = s.mem a) := by
  have htable : PageTable smallTable := by simp [PageTable, smallTable, pageSize]
  exact touch_current_phase plainWorld rfl smallTable htable [.p 3, .M 2, .e 1, .t 0] (fun _ => 0) ()
    twoPhases_placed 10 3

end Gobbler.Proofs
