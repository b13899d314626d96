import Gobbler.Model.Pattern

namespace Gobbler.Proofs
open Effect

variable {γ : Type} {w : World γ} {addr first last len : Nat} {win : Nat × Nat}

/-- The windows of a slice, each with its start and its length. A slice of less
than two pages has one, shortened by 1000 bytes; any other has whole pages, and
none that would end where the slice ends. -/
def windows (first last : Nat) : List (Nat × Nat) :=
  if last - first < 8192 then [(first, last - 1000 - first)]
  else (List.range' 0 ((last - first - 1) / 4096)).map fun i => (first + 4096 * i, 4096)

def visitWindows (w : World γ) (addr : Nat) : List (Nat × Nat) → M γ PUnit
  | [] => return
  | win :: wins => do
    randomTouchPage w (addr + win.1) win.2
    visitWindows w addr wins

/-- The windows of so many slices, which alternate between the halves. -/
def rounds (len : Nat) : Nat → Bool → List (Nat × Nat)
  | 0, _ => []
  | n + 1, whichSlice =>
    windows (if whichSlice then len / 2 else 0) (if whichSlice then len else len / 2) ++
      rounds len n (!whichSlice)

theorem visitWindows_append (wins wins' : List (Nat × Nat)) :
    visitWindows w addr (wins ++ wins') =
      (do visitWindows w addr wins; visitWindows w addr wins') := by
  induction wins with
  | nil => rfl
  | cons win wins ih => simp only [List.cons_append, visitWindows, ih, bind_assoc]

/-- The loop over whole pages breaks before a window that ends with the slice. -/
theorem randomTouchLoop_pages (hp : w.pageSize = 4096) (hs : 8192 ≤ last - first)
    (hh : last < 2 ^ 64) (n i : Nat) (hn : n + i = (last - first) / 4096) :
    randomTouchLoop w addr first last ((last - first) / 4096) n i =
      visitWindows w addr ((List.range' i ((last - first - 1) / 4096 - i)).map fun i =>
        (first + 4096 * i, 4096)) := by
  have hpages : 1 < (last - first) / 4096 := by omega
  induction n generalizing i with
  | zero =>
    have hnone : (last - first - 1) / 4096 - i = 0 := by omega
    rw [hnone]
    rfl
  | succ n ih =>
    have hloop : wrap (4096 * i) = 4096 * i := wrap_of_lt (by omega)
    have hstart : wrap (first + 4096 * i) = first + 4096 * i := wrap_of_lt (by omega)
    have hend : wrap (4096 + (first + 4096 * i)) = 4096 + (first + 4096 * i) := wrap_of_lt (by omega)
    have hlen : wrapSub (4096 + (first + 4096 * i)) (first + 4096 * i) = 4096 := by
      simp only [wrapSub]
      omega
    unfold randomTouchLoop
    simp only [hp, if_pos hpages, hloop, hstart, hend, hlen]
    by_cases hbreak : last ≤ 4096 + (first + 4096 * i)
    · have hnone : (last - first - 1) / 4096 - i = 0 := by omega
      rw [if_pos hbreak, hnone]
      rfl
    · have hmore : (last - first - 1) / 4096 - i = (last - first - 1) / 4096 - (i + 1) + 1 := by
        omega
      rw [if_neg hbreak, ih (i + 1) (by omega), hmore]
      rfl

/-- A slice of less than two pages has one window. -/
theorem randomTouchLoop_one {pages : Nat} (hpages : ¬1 < pages) (hs : first + 2048 ≤ last)
    (hh : last < 2 ^ 64) :
    randomTouchLoop w addr first last pages 1 0 =
      visitWindows w addr [(first, last - 1000 - first)] := by
  have hstart : wrap (first + 0) = first := by
    simp only [wrap]
    omega
  have hend : wrapSub last 1000 = last - 1000 := wrapSub_of_le (by omega) (by omega)
  have hlen : wrapSub (last - 1000) first = last - 1000 - first := wrapSub_of_le (by omega) (by omega)
  have hgo : ¬last ≤ last - 1000 := by omega
  unfold randomTouchLoop
  simp only [if_neg hpages, hstart, hend, hlen, if_neg hgo]
  rfl

/-- `random_touch` visits the windows of its slice. -/
theorem randomTouch_eq (hp : w.pageSize = 4096) (hs : first + 2048 ≤ last) (hh : last < 2 ^ 64) :
    randomTouch w addr first last = visitWindows w addr (windows first last) := by
  have hintr : wrapSub last first = last - first := wrapSub_of_le (by omega) (by omega)
  have hlong : last - first ≠ 0 := by omega
  unfold randomTouch windows
  simp only [hintr, hp, if_neg hlong]
  by_cases hshort : last - first < 8192
  · rw [if_pos hshort]
    by_cases hnone : (last - first) / 4096 = 0
    · simp only [if_pos hnone]
      exact randomTouchLoop_one (by decide) hs hh
    · have hone : (last - first) / 4096 = 1 := by omega
      simp only [hone, Nat.one_ne_zero, if_false]
      exact randomTouchLoop_one (by decide) hs hh
  · have hpages : (last - first) / 4096 ≠ 0 := by omega
    rw [if_neg hshort, if_neg hpages]
    exact randomTouchLoop_pages hp (by omega) hh _ 0 rfl

theorem randomTouchNLoop_eq (hp : w.pageSize = 4096) (hl : 4096 ≤ len) (hh : len < 2 ^ 64)
    (n : Nat) (whichSlice : Bool) :
    randomTouchNLoop w addr len (len / 2) n whichSlice =
      visitWindows w addr (rounds len n whichSlice) := by
  induction n generalizing whichSlice with
  | zero => rfl
  | succ n ih =>
    have hslice : randomTouch w addr (if whichSlice then len / 2 else 0)
        (if whichSlice then len else len / 2) = visitWindows w addr
          (windows (if whichSlice then len / 2 else 0) (if whichSlice then len else len / 2)) := by
      cases whichSlice
      · exact randomTouch_eq hp (by simp; omega) (by simp; omega)
      · exact randomTouch_eq hp (by simp; omega) (by simpa using hh)
    unfold randomTouchNLoop rounds
    rw [visitWindows_append, ← hslice, ← ih]

/-- `pattern_rand` visits the windows of both halves in turn. -/
theorem patternRand_eq (hp : w.pageSize = 4096) (hl : 4096 ≤ len) (hh : len < 2 ^ 64) (s : St γ) :
    patternRand w addr len s =
      visitWindows w addr (rounds len (if s.inTransition then 2 else 10) false) s := by
  rw [← randomTouchNLoop_eq hp hl hh]
  rfl

theorem mem_windows (hs : first + 2048 ≤ last) (h : win ∈ windows first last) :
    first ≤ win.1 ∧ win.1 + win.2 ≤ last ∧ 21 ≤ win.2 ∧ win.2 < 8192 := by
  unfold windows at h
  split at h
  · obtain rfl := List.mem_singleton.mp h
    simp only
    omega
  · obtain ⟨i, hi, rfl⟩ := List.mem_map.mp h
    have hlt := (List.mem_range'_1.mp hi).2
    simp only
    omega

theorem mem_rounds {n : Nat} {whichSlice : Bool} (h : win ∈ rounds len n whichSlice) :
    win ∈ windows 0 (len / 2) ∨ win ∈ windows (len / 2) len := by
  induction n generalizing whichSlice with
  | zero => cases h
  | succ n ih =>
    rcases List.mem_append.mp h with hslice | hrest
    · cases whichSlice
      · exact .inl hslice
      · exact .inr hslice
    · exact ih hrest

/-- Two rounds are enough for both halves. -/
theorem mem_rounds_two {n : Nat} (h : win ∈ windows 0 (len / 2) ∨ win ∈ windows (len / 2) len) :
    win ∈ rounds len (n + 2) false := by
  rcases h with h | h
  · exact List.mem_append.mpr (.inl h)
  · exact List.mem_append.mpr (.inr (List.mem_append.mpr (.inl h)))

/-- What a visit of each window keeps, a visit of them all keeps. -/
theorem visitWindows_yields {R : St γ → St γ → Prop} [IsPreorder (St γ) R] {X : Halt → Prop}
    {wins : List (Nat × Nat)}
    (h : ∀ win ∈ wins, Yields R X (fun _ => True) (randomTouchPage w (addr + win.1) win.2)) :
    Yields R X (fun _ => True) (visitWindows w addr wins) := by
  induction wins with
  | nil => exact yields_pure trivial
  | cons win wins ih =>
    have hrest := ih fun win hw => h win (List.mem_cons_of_mem _ hw)
    exact yields_seq (h win List.mem_cons_self) fun _ => hrest

theorem patternRand_yields {R : St γ → St γ → Prop} [IsPreorder (St γ) R] {X : Halt → Prop}
    (hp : w.pageSize = 4096) (hl : 4096 ≤ len) (hh : len < 2 ^ 64)
    (h : ∀ win, win ∈ windows 0 (len / 2) ∨ win ∈ windows (len / 2) len →
      Yields R X (fun _ => True) (randomTouchPage w (addr + win.1) win.2)) :
    Yields R X (fun _ => True) (patternRand w addr len) := by
  intro s
  rw [ends_congr (patternRand_eq hp hl hh s)]
  exact visitWindows_yields (fun win hw => h win (mem_rounds hw)) s

end Gobbler.Proofs
