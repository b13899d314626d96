import Mathlib.Order.Interval.Finset.Nat

namespace Sweep

variable {n : Nat}

/-- Where a cursor over `n` slots is before round `k`. It counts down, and spends
a round of its own on going back to the top. -/
def cursor (n k : Nat) : Nat := n - k % (n + 1)

/-- The slot that round `k` visits, if it visits one. -/
def visited (n k : Nat) : Option Nat :=
  if k % (n + 1) < n then some (n - 1 - k % (n + 1)) else none

theorem cursor_zero (n : Nat) : cursor n 0 = n := by
  rw [cursor, Nat.zero_mod, Nat.sub_zero]

theorem succ_mod (n k : Nat) :
    (k + 1) % (n + 1) = if k % (n + 1) < n then k % (n + 1) + 1 else 0 := by
  have hlt : k % (n + 1) < n + 1 := Nat.mod_lt k (Nat.succ_pos n)
  rw [Nat.add_mod]
  by_cases hn : n = 0
  · subst hn
    rw [if_neg (Nat.not_lt_zero _)]
    omega
  · rw [Nat.mod_eq_of_lt (show 1 < n + 1 by omega)]
    split
    · exact Nat.mod_eq_of_lt (by omega)
    · rw [show k % (n + 1) + 1 = n + 1 by omega, Nat.mod_self]

/-- While it is not at the bottom the cursor visits the slot below it. -/
theorem visited_down {k : Nat} (h : 0 < cursor n k) :
    visited n k = some (cursor n k - 1) ∧ cursor n (k + 1) = cursor n k - 1 := by
  unfold cursor at h
  have hlt : k % (n + 1) < n := by omega
  refine ⟨?_, ?_⟩
  · rw [visited, if_pos hlt, cursor]
    congr 1
    omega
  · rw [cursor, cursor, succ_mod, if_pos hlt]
    omega

/-- At the bottom it visits none and returns to the top. -/
theorem visited_top {k : Nat} (h : cursor n k = 0) :
    visited n k = none ∧ cursor n (k + 1) = n := by
  unfold cursor at h
  have hnot : ¬k % (n + 1) < n := by omega
  refine ⟨if_neg hnot, ?_⟩
  rw [cursor, succ_mod, if_neg hnot, Nat.sub_zero]

theorem visited_lt {k j : Nat} (h : visited n k = some j) : j < n := by
  unfold visited at h
  split at h
  · cases h
    omega
  · cases h

theorem visited_eq_some {k j : Nat} (hj : j < n) :
    visited n k = some j ↔ k % (n + 1) = n - 1 - j := by
  unfold visited
  split
  · rw [Option.some.injEq]
    omega
  · refine ⟨nofun, fun h => ?_⟩
    omega

/-- Any `n + 1` rounds in a row visit every slot exactly once. -/
theorem visited_window {j : Nat} (hj : j < n) (start : Nat) :
    ∃! k, (start ≤ k ∧ k < start + (n + 1)) ∧ visited n k = some j := by
  have hmem : n - 1 - j ∈ (Finset.Ico start (start + (n + 1))).image (· % (n + 1)) := by
    rw [Nat.image_Ico_mod]
    exact Finset.mem_range.mpr (by omega)
  obtain ⟨k, hk, hmod⟩ := Finset.mem_image.mp hmem
  refine ⟨k, ⟨Finset.mem_Ico.mp hk, (visited_eq_some hj).mpr hmod⟩, ?_⟩
  intro k' hq
  obtain ⟨hk', hv⟩ := hq
  have hmod' := (visited_eq_some hj).mp hv
  exact Nat.mod_injOn_Ico start (n + 1) (Finset.mem_coe.mpr (Finset.mem_Ico.mpr hk'))
    (Finset.mem_coe.mpr hk) (hmod'.trans hmod.symm)

section rounds

variable {α : Type} (f : Nat → List α)

/-- What is swept in round `k`, when a visit to slot `j` does `f j`. -/
def swept (n k : Nat) : List α := (visited n k).elim [] f

theorem visited_add (n k : Nat) : visited n (n + 1 + k) = visited n k := by
  rw [visited, visited, Nat.add_mod_left]

/-- A whole sweep goes from the top to the bottom. -/
theorem flatMap_sweep (n : Nat) :
    (List.range (n + 1)).flatMap (swept f n) = (List.range n).reverse.flatMap f := by
  have hlast : swept f n n = [] := by
    simp [swept, visited]
  have hdown : ∀ k ∈ List.range n, swept f n k = f (0 + n - 1 - k) := by
    intro k hk
    have hlt : k < n := List.mem_range.mp hk
    simp [swept, visited, Nat.mod_eq_of_lt (Nat.lt_succ_of_lt hlt), hlt]
  rw [List.range_succ, List.flatMap_append, List.flatMap_singleton, hlast, List.append_nil,
    List.flatMap_congr hdown, List.range_eq_range', List.reverse_range', ← List.range_eq_range',
    List.flatMap_map]

theorem flatMap_sweeps (n m : Nat) : (List.range (m * (n + 1))).flatMap (swept f n) =
    (List.replicate m ((List.range n).reverse.flatMap f)).flatten := by
  induction m with
  | zero => rw [Nat.zero_mul, List.replicate_zero]; rfl
  | succ m ih =>
    have hnext : ∀ k, swept f n (n + 1 + k) = swept f n k := fun k => by rw [swept, visited_add, swept]
    rw [Nat.succ_mul, Nat.add_comm, List.range_add, List.flatMap_append, flatMap_sweep,
      List.flatMap_map, List.flatMap_congr fun k _ => hnext k, ih, List.replicate_succ, List.flatten_cons]

end rounds

end Sweep
