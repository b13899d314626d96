import Mathlib.Data.List.Induction

namespace Settings

variable {σ ι κ : Type} [DecidableEq κ]

/-- Actions that set different things commute, and of two that set the same the
later one wins. -/
structure Setting (key : ι → κ) (act : σ → ι → σ) : Prop where
  commute : ∀ i j, key i ≠ key j → ∀ s, act (act s i) j = act (act s j) i
  override : ∀ i j, key i = key j → ∀ s, act (act s i) j = act s j

/-- The last action of a list that sets `k`. -/
def lastOf (key : ι → κ) (k : κ) (l : List ι) : Option ι := (l.filter fun i => key i = k).getLast?

section rules

variable {key : ι → κ} {act : σ → ι → σ}

theorem lastOf_append_singleton (k : κ) (l : List ι) (i : ι) :
    lastOf key k (l ++ [i]) = if key i = k then some i else lastOf key k l := by
  unfold lastOf
  by_cases h : key i = k
  · simp [List.filter_append, h]
  · simp [List.filter_append, h]

/-- The last action on `k` has none on `k` after it. -/
theorem lastOf_split {k : κ} {l : List ι} {i : ι} (h : lastOf key k l = some i) :
    ∃ before after, l = before ++ i :: after ∧ key i = k ∧ ∀ j ∈ after, key j ≠ k := by
  induction l using List.reverseRecOn with
  | nil => simp [lastOf] at h
  | append_singleton l j ih =>
    rw [lastOf_append_singleton] at h
    by_cases hj : key j = k
    · rw [if_pos hj, Option.some.injEq] at h
      subst h
      exact ⟨l, [], rfl, hj, by simp⟩
    · rw [if_neg hj] at h
      obtain ⟨before, after, rfl, hi, hafter⟩ := ih h
      refine ⟨before, after ++ [j], by simp, hi, fun j' hj' => ?_⟩
      rcases List.mem_append.mp hj' with hin | hin
      · exact hafter j' hin
      · exact List.mem_singleton.mp hin ▸ hj

omit [DecidableEq κ] in
/-- An action goes past actions that set other things. -/
theorem Setting.past (h : Setting key act) {i : ι} {l : List ι} (hl : ∀ j ∈ l, key j ≠ key i) (s : σ) :
    l.foldl act (act s i) = act (l.foldl act s) i := by
  induction l generalizing s with
  | nil => rfl
  | cons j l ih =>
    obtain ⟨hj, hrest⟩ := List.forall_mem_cons.mp hl
    rw [List.foldl_cons, List.foldl_cons, h.commute i j (Ne.symm hj), ih hrest]

/-- What an action overrides may be left out before it. -/
theorem Setting.drop (h : Setting key act) (i : ι) (l : List ι) (s : σ) :
    act (l.foldl act s) i = act ((l.filter fun j => key j ≠ key i).foldl act s) i := by
  induction l generalizing s with
  | nil => rfl
  | cons j l ih =>
    rw [List.foldl_cons, ih]
    by_cases hj : key j = key i
    · have hrest : ∀ j' ∈ l.filter fun j => key j ≠ key i, key j' ≠ key j := by
        intro j' hj'
        rw [hj]
        simpa using (List.mem_filter.mp hj').2
      rw [h.past hrest, h.override j i hj, List.filter_cons_of_neg (by simpa using hj)]
    · rw [List.filter_cons_of_pos (by simpa using hj), List.foldl_cons]

theorem lastOf_filter (k k' : κ) (l : List ι) :
    lastOf key k (l.filter fun j => key j ≠ k') = if k = k' then none else lastOf key k l := by
  unfold lastOf
  rw [List.filter_filter]
  by_cases h : k = k'
  · subst h
    simp
  · rw [if_neg h]
    congr 1
    apply List.filter_congr
    intro j _
    by_cases hj : key j = k
    · simp [hj, h]
    · simp [hj]

/-- Only the last action on each thing matters, and not the order of these. -/
theorem Setting.foldl_eq (h : Setting key act) {l l' : List ι}
    (heq : ∀ k, lastOf key k l = lastOf key k l') (s : σ) : l.foldl act s = l'.foldl act s := by
  induction hn : l.length using Nat.strongRecOn generalizing l l' with
  | ind n ih =>
    cases l using List.reverseRecOn with
    | nil =>
      cases l' using List.reverseRecOn with
      | nil => rfl
      | append_singleton l' j =>
        have hj := heq (key j)
        rw [lastOf_append_singleton, if_pos rfl] at hj
        simp [lastOf] at hj
    | append_singleton l i =>
      have hlast := heq (key i)
      rw [lastOf_append_singleton, if_pos rfl] at hlast
      obtain ⟨before, after, rfl, _, hafter⟩ := lastOf_split hlast.symm
      -- both lists end in `i` once it is moved past what follows it
      have hleft : (l ++ [i]).foldl act s = act ((l.filter fun j => key j ≠ key i).foldl act s) i := by
        rw [List.foldl_append, List.foldl_cons, List.foldl_nil, h.drop]
      have hright : (before ++ i :: after).foldl act s =
          act (((before ++ after).filter fun j => key j ≠ key i).foldl act s) i := by
        rw [List.foldl_append, List.foldl_cons, h.past hafter, ← List.foldl_append, h.drop]
      rw [hleft, hright, ih _ ?_ ?_ rfl]
      · rw [← hn, List.length_append, List.length_singleton]
        exact Nat.lt_succ_of_le (List.length_filter_le _ _)
      · intro k
        rw [lastOf_filter, lastOf_filter]
        by_cases hk : k = key i
        · rw [if_pos hk, if_pos hk]
        · rw [if_neg hk, if_neg hk]
          have hk' := heq k
          rw [lastOf_append_singleton, if_neg (Ne.symm hk)] at hk'
          rw [hk']
          unfold lastOf
          rw [List.filter_append, List.filter_append, List.filter_cons_of_neg (by simpa using Ne.symm hk)]

end rules

end Settings
