import Gobbler.Lib.Log
import Gobbler.Proofs.Runs

namespace Gobbler.Proofs
open Effect

variable {γ : Type} {addr len : Nat}

/-- The bytes at `as` were written, one after the other, and the books were kept. -/
structure Visits (as : List Nat) (s t : St γ) : Prop where
  book : t.toBook = s.toBook
  writes : t.writes = (as.map fun a => (s.curr, a)).reverse ++ s.writes

theorem Visits.curr {as : List Nat} {s t : St γ} (h : Visits as s t) : t.curr = s.curr :=
  congrArg (fun b : Book => b.curr) h.book

theorem Visits.refl (s : St γ) : Visits [] s s := ⟨rfl, rfl⟩

theorem Visits.append {as bs : List Nat} {s t u : St γ} (h : Visits as s t) (h' : Visits bs t u) :
    Visits (as ++ bs) s u := by
  refine ⟨h'.book.trans h.book, ?_⟩
  rw [h'.writes, h.writes, h.curr, List.map_append, List.reverse_append, List.append_assoc]

instance : Logged (Visits (γ := γ)) where
  refl := Visits.refl
  append := Visits.append

theorem Quiet.visits {s t : St γ} (h : Quiet s t) : Visits [] s t := ⟨h.book, h.writes⟩

/-- The bytes at `as` were written, and the CPU clock was not read. -/
structure Writes (as : List Nat) (s t : St γ) : Prop where
  visits : Visits as s t
  reads : t.cpuReads = s.cpuReads

instance : Logged (Writes (γ := γ)) where
  refl s := ⟨Visits.refl s, rfl⟩
  append h h' := ⟨h.visits.append h'.visits, h'.reads.trans h.reads⟩

theorem touchSimple_writes (a : Nat) : Performs Writes [a] (touchSimple a : M γ PUnit) := by
  apply performs_of_ends
  intro s
  unfold touchSimple store
  simp only [ends_bind, ends_get]
  rw [ends_ite]
  exact ⟨fun _ => ⟨⟨rfl, rfl⟩, rfl⟩, fun _ => ⟨⟨rfl, rfl⟩, rfl⟩⟩

theorem touchSimple_visits (a : Nat) : Performs Visits [a] (touchSimple a : M γ PUnit) :=
  performs_of_ends fun s => ((touchSimple_writes a).ends s).mono (fun _ _ h => h.visits) fun _ _ he => he

/-- The bytes below `n` in their order. -/
theorem touchAll_visits (addr n : Nat) :
    Performs Visits ((List.range n).map (addr + ·))
      (upTo (fun i => touchSimple (addr + i)) n : M γ PUnit) := by
  rw [List.map_eq_flatMap]
  exact performs_upTo (fun i => touchSimple_visits (addr + i)) n

/-- `stride_get_offset` never divides by zero, and its divisor is only made
smaller for mappings of less than 1000 bytes. -/
theorem strideGetOffset_ends (hl : 1 ≤ len) (s : St γ) :
    Ends (strideGetOffset len) s
      (fun v t => Visits [] s t ∧ 1 ≤ v ∧ v ≤ len ∧ (strideCut ≤ len → v = len / strideCut))
      fun _ _ => False := by
  have hq := strideGetOffset_quiet (X := fun _ => False) hl s
  by_cases hcut : strideCut ≤ len
  · have hfirst : strideGetOffset len s = .ok (len / strideCut)
        { s with calls := .strideGetOffset len :: s.calls } := by
      have hpos : len / strideCut ≠ 0 := by
        simp only [strideCut] at hcut ⊢
        omega
      simp only [strideGetOffset, strideLoop, if_neg hpos]
      rfl
    unfold Ends at hq ⊢
    rw [hfirst] at hq ⊢
    exact ⟨hq.1.visits, hq.2.1, hq.2.2, fun _ => rfl⟩
  · refine hq.mono ?_ fun _ _ he => he.2
    intro v t hq'
    obtain ⟨ht, hlow, hhigh⟩ := hq'
    exact ⟨ht.visits, hlow, hhigh, fun h => absurd h hcut⟩

/-- The touches of `pattern_stride` on a stride of `stride` bytes. -/
def strides (addr len stride : Nat) : List Nat :=
  (List.range (len ⌈/⌉ stride)).map fun k => addr + k * stride

theorem ceilDiv_step {n stride : Nat} (hs : 1 ≤ stride) (hn : 1 ≤ n) :
    n ⌈/⌉ stride = (n - stride) ⌈/⌉ stride + 1 := by
  simp only [Nat.ceilDiv_eq_add_pred_div]
  by_cases h : stride ≤ n
  · have hsum : n + stride - 1 = (n - stride + stride - 1) + stride := by omega
    rw [hsum, Nat.add_div_right _ (by omega)]
  · have hzero : n - stride = 0 := by omega
    rw [hzero, Nat.zero_add, Nat.div_eq_of_lt (show stride - 1 < stride by omega)]
    exact Nat.div_eq_of_lt_le (by omega) (by omega)

theorem strides_step {i stride : Nat} (hs : 1 ≤ stride) (hi : i < len) :
    strides (addr + i) (len - i) stride =
      (addr + i) :: strides (addr + (i + stride)) (len - (i + stride)) stride := by
  unfold strides
  rw [ceilDiv_step hs (by omega), List.range_succ_eq_map, List.map_cons, List.map_map,
    Nat.zero_mul, Nat.add_zero, Nat.sub_sub]
  congr 1
  apply List.map_congr_left
  intro k _
  simp only [Function.comp, Nat.succ_mul]
  omega

theorem patternStrideLoop_visits {stride : Nat} (hs : 1 ≤ stride) (hw : len + stride ≤ 2 ^ 64)
    (n i : Nat) (hn : len - i < n) :
    Performs Visits (strides (addr + i) (len - i) stride)
      (patternStrideLoop addr len stride n i : M γ PUnit) := by
  induction n generalizing i with
  | zero => omega
  | succ n ih =>
    unfold patternStrideLoop
    by_cases hi : i < len
    · have hnext : wrap (i + stride) = i + stride := wrap_of_lt (by omega)
      rw [if_pos hi, hnext, strides_step hs hi]
      exact performs_bind (touchSimple_visits _) fun _ => ih (i + stride) (by omega)
    · have hzero : len - i = 0 := by omega
      have hnone : strides (addr + i) 0 stride = [] := by
        rw [strides, zero_ceilDiv, List.range_zero, List.map_nil]
      rw [if_neg hi, hzero, hnone]
      exact performs_pure PUnit.unit

theorem lt_ceilDiv {k n stride : Nat} (hs : 1 ≤ stride) : k < n ⌈/⌉ stride ↔ k * stride < n := by
  rw [← not_le, ceilDiv_le_iff_le_mul (by omega), not_le, Nat.mul_comm]

/-- A stride cuts the mapping into fewer than two thousand pieces. -/
theorem strides_few {stride : Nat} (hl : 1 ≤ stride) (hcut : strideCut ≤ len → stride = len / strideCut) :
    len ⌈/⌉ stride ≤ 1999 := by
  rw [ceilDiv_le_iff_le_mul (by omega)]
  by_cases h : strideCut ≤ len
  · have hstride := hcut h
    simp only [strideCut] at hstride
    omega
  · simp only [strideCut] at h
    nlinarith

/-- `pattern_stride` touches the offsets 0, s, 2s, … of the mapping in their
order, at most 1999 of them, and ends. -/
theorem stride_pattern (addr len : Nat) (hl : 1 ≤ len) (hw : len + len / 1000 < 2 ^ 64) (s : St γ) :
    ∃ stride, 1 ≤ stride ∧ stride ≤ len ∧
      Ends (strideGetOffset len) s (fun v _ => v = stride) (fun _ _ => False) ∧
      Ends (patternStride addr len) s
        (fun _ t => t.writes = ((strides addr len stride).map fun a => (s.curr, a)).reverse ++ s.writes)
        (fun _ _ => False) ∧
      (∀ k, k < (strides addr len stride).length ↔ k * stride < len) ∧
      (strides addr len stride).length = len ⌈/⌉ stride ∧
      (strides addr len stride).length ≤ 1999 := by
  have hget := strideGetOffset_ends hl s
  have hlen : ∀ stride, (strides addr len stride).length = len ⌈/⌉ stride := by
    intro stride
    simp [strides]
  unfold Ends at hget
  cases hrun : strideGetOffset len s with
  | error e t =>
    rw [hrun] at hget
    exact hget.elim
  | ok stride t =>
    rw [hrun] at hget
    obtain ⟨hvisits, hlow, hhigh, hcut⟩ := hget
    have hroom : len + stride ≤ 2 ^ 64 := by
      by_cases h : strideCut ≤ len
      · have hstride := hcut h
        simp only [strideCut] at hstride
        omega
      · simp only [strideCut] at h
        omega
    refine ⟨stride, hlow, hhigh, ?_, ?_, fun k => ?_, hlen stride, ?_⟩
    · simp [Ends, hrun]
    · have hloop : Performs Visits (strides (addr + 0) (len - 0) stride)
          (patternStrideLoop addr len stride (len + 1) 0 : M γ PUnit) :=
        patternStrideLoop_visits hlow hroom (len + 1) 0 (by omega)
      rw [Nat.add_zero, Nat.sub_zero] at hloop
      unfold Ends patternStride
      rw [bind_ok hrun]
      apply (hloop.ends t).imp
      intro _ u hu
      exact (hvisits.append hu).writes
    · rw [hlen, lt_ceilDiv hlow]
    · rw [hlen]
      exact strides_few hlow hcut

theorem stride_pattern_page :
    let s : St Unit := initial smallTable (fun _ => 0) ()
    ∃ stride, 1 ≤ stride ∧ stride ≤ 4096 ∧
      Ends (strideGetOffset 4096) s (fun v _ => v = stride) (fun _ _ => False) ∧
      Ends (patternStride 0 4096) s
        (fun _ t => t.writes = ((strides 0 4096 stride).map fun a => (s.curr, a)).reverse ++ s.writes)
        (fun _ _ => False) ∧
      (∀ k, k < (strides 0 4096 stride).length ↔ k * stride < 4096) ∧
      (strides 0 4096 stride).length = 4096 ⌈/⌉ stride ∧
      (strides 0 4096 stride).length ≤ 1999 :=
  stride_pattern 0 4096 (by decide) (by decide) (initial smallTable (fun _ => 0) ())

end Gobbler.Proofs
