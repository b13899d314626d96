import Mathlib.Data.List.Flatten
import Mathlib.Data.List.Range

namespace Chapters

variable {α : Type} {f g : Nat → List α} {n : Nat} {as : List α}

/-- A log of `n` chapters, one after the other. -/
def chapters (f : Nat → List α) (n : Nat) : List α := (List.range n).flatMap f

theorem chapters_succ (f : Nat → List α) (n : Nat) : chapters f (n + 1) = chapters f n ++ f n := by
  simp [chapters, List.range_succ]

theorem chapters_congr (h : ∀ p, p < n → g p = f p) : chapters g n = chapters f n :=
  List.flatMap_congr fun p hp => h p (List.mem_range.mp hp)

/-- A chapter is opened without a word. -/
theorem chapters_opened (h : ∀ p, p < n → g p = f p) (hn : g n = []) :
    chapters g (n + 1) = chapters f n := by
  rw [chapters_succ, chapters_congr h, hn, List.append_nil]

/-- The log goes on where its last chapter does. -/
theorem chapters_extended (h : ∀ p, p < n → g p = f p) (hn : g n = f n ++ as) :
    chapters g (n + 1) = chapters f (n + 1) ++ as := by
  rw [chapters_succ, chapters_succ, chapters_congr h, hn, List.append_assoc]

end Chapters
