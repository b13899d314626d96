import Gobbler.Model.Allocator

namespace Gobbler.Proofs

/-- A class after a search: it may have been found full, and nothing else. -/
structure Searched (c c' : FileClass) : Prop where
  size : c'.size = c.size
  paths : c'.paths = c.paths
  filled : c'.filled = c.filled ∨ (c'.filled = 1 ∧ findAvailNode c.paths = none)

theorem Searched.refl (c : FileClass) : Searched c c := ⟨rfl, rfl, .inl rfl⟩

/-- The pool after a search, class by class. -/
abbrev PoolSearched (lst lst' : List FileClass) : Prop := List.Forall₂ Searched lst lst'

theorem PoolSearched.refl (lst : List FileClass) : PoolSearched lst lst :=
  List.forall₂_same.mpr fun c _ => Searched.refl c

theorem PoolSearched.sizes {lst lst' : List FileClass} (h : PoolSearched lst lst') :
    lst'.map FileClass.size = lst.map FileClass.size := by
  induction h with
  | nil => rfl
  | cons hc _ ih => simp only [List.map_cons, hc.size, ih]

theorem PoolSearched.paths {lst lst' : List FileClass} (h : PoolSearched lst lst') :
    lst'.map FileClass.paths = lst.map FileClass.paths := by
  induction h with
  | nil => rfl
  | cons hc _ ih => simp only [List.map_cons, hc.paths, ih]

/-- The class and the node a search for `len` bytes ends with. -/
structure FirstFit (lst : List FileClass) (len : Nat) (c : FileClass) (i j : Nat) : Prop where
  found : lst[i]? = some c
  fits : len ≤ c.size
  avail : findAvailNode c.paths = some j
  first : ∀ k d, k < i → lst[k]? = some d → len ≤ d.size → findAvailNode d.paths = none

/-- No class that fits has an unmarked node. -/
def Exhausted (lst : List FileClass) (len : Nat) : Prop :=
  ∀ c ∈ lst, len ≤ c.size → findAvailNode c.paths = none

theorem getFilePathLoop_searched (lst : List FileClass) (i len : Nat) :
    PoolSearched lst (getFilePathLoop lst i len).2.2 := by
  induction lst generalizing i with
  | nil => exact .nil
  | cons c cs ih =>
    unfold getFilePathLoop
    split
    · cases hav : findAvailNode c.paths with
      | some j => exact PoolSearched.refl _
      | none => exact .cons ⟨rfl, rfl, .inr ⟨rfl, hav⟩⟩ (ih (i + 1))
    · exact .cons (Searched.refl c) (ih (i + 1))

/-- A class that is too small or full is passed over. -/
theorem getFilePathLoop_skip {c : FileClass} {len : Nat}
    (h : len ≤ c.size → findAvailNode c.paths = none) (cs : List FileClass) (i : Nat) :
    (getFilePathLoop (c :: cs) i len).1 = (getFilePathLoop cs (i + 1) len).1 ∧
      (getFilePathLoop (c :: cs) i len).2.1 = (getFilePathLoop cs (i + 1) len).2.1 := by
  by_cases hfit : len ≤ c.size
  · have hav := h hfit
    simp [getFilePathLoop, hfit, hav]
  · simp [getFilePathLoop, hfit]

theorem FirstFit.skip {c d : FileClass} {cs : List FileClass} {len i j : Nat}
    (h : FirstFit cs len d i j) (hc : len ≤ c.size → findAvailNode c.paths = none) :
    FirstFit (c :: cs) len d (i + 1) j := by
  refine ⟨by simpa using h.found, h.fits, h.avail, ?_⟩
  intro k e hk he hle
  cases k with
  | zero =>
    simp only [List.getElem?_cons_zero, Option.some.injEq] at he
    subst e
    exact hc hle
  | succ k => exact h.first k e (by omega) (by simpa using he) hle

theorem getFilePathLoop_some {lst : List FileClass} {i len k j : Nat}
    (h : (getFilePathLoop lst i len).1 = some (k, j)) :
    ∃ c, i ≤ k ∧ FirstFit lst len c (k - i) j ∧ (getFilePathLoop lst i len).2.1 = c.size := by
  induction lst generalizing i with
  | nil => simp [getFilePathLoop] at h
  | cons c cs ih =>
    by_cases hskip : len ≤ c.size → findAvailNode c.paths = none
    · obtain ⟨hnode, hlen⟩ := getFilePathLoop_skip hskip cs i
      rw [hnode] at h
      obtain ⟨d, hle, hf, hd⟩ := ih h
      refine ⟨d, by omega, ?_, hlen.trans hd⟩
      rw [show k - i = (k - (i + 1)) + 1 by omega]
      exact hf.skip hskip
    · obtain ⟨hfit, hav⟩ := Classical.not_imp.mp hskip
      obtain ⟨j', hj⟩ := Option.ne_none_iff_exists'.mp hav
      simp only [getFilePathLoop, hfit, hj, if_true, Option.some.injEq, Prod.mk.injEq] at h ⊢
      obtain ⟨rfl, rfl⟩ := h
      refine ⟨c, Nat.le_refl i, ⟨by simp, hfit, hj, ?_⟩, rfl⟩
      intro m d hm
      omega

theorem getFilePathLoop_none {lst : List FileClass} {i len : Nat}
    (h : (getFilePathLoop lst i len).1 = none) :
    Exhausted lst len ∧ (getFilePathLoop lst i len).2.1 = len := by
  induction lst generalizing i with
  | nil => exact ⟨by simp [Exhausted], rfl⟩
  | cons c cs ih =>
    by_cases hskip : len ≤ c.size → findAvailNode c.paths = none
    · obtain ⟨hnode, hlen⟩ := getFilePathLoop_skip hskip cs i
      obtain ⟨he, hl⟩ := ih (hnode ▸ h)
      exact ⟨List.forall_mem_cons.mpr ⟨hskip, he⟩, hlen.trans hl⟩
    · obtain ⟨hfit, hav⟩ := Classical.not_imp.mp hskip
      obtain ⟨j, hj⟩ := Option.ne_none_iff_exists'.mp hav
      simp [getFilePathLoop, hfit, hj] at h

end Gobbler.Proofs
