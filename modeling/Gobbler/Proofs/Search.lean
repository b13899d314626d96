import Gobbler.Proofs.Pool

namespace Gobbler.Proofs

variable {γ : Type} {lst : List FileClass} {len i j k : Nat}

/-- The class has no unmarked node. -/
def FullyMarked (c : FileClass) : Prop := ∀ node ∈ c.paths, node.alloc ≠ 0

instance (c : FileClass) : Decidable (FullyMarked c) := inferInstanceAs (Decidable (∀ _ ∈ _, _))

/-- Node `j` is the first unmarked one. -/
structure FirstUnmarked (paths : List FileNode) (j : Nat) : Prop where
  unmarked : ∃ node, paths[j]? = some node ∧ node.alloc = 0
  first : ∀ k node, k < j → paths[k]? = some node → node.alloc ≠ 0

/-- What a search for `len` bytes does to a class that it passes over. -/
def markFull (len : Nat) (c : FileClass) : FileClass :=
  if len ≤ c.size ∧ FullyMarked c then { c with filled := 1 } else c

theorem findAvailNode_none {c : FileClass} : findAvailNode c.paths = none ↔ FullyMarked c := by
  simp [findAvailNode, FullyMarked]

theorem findAvailNode_some {paths : List FileNode} (h : findAvailNode paths = some j) :
    FirstUnmarked paths j := by
  obtain ⟨hj, hmark, hfirst⟩ := List.findIdx?_eq_some_iff_getElem.mp h
  refine ⟨⟨paths[j], List.getElem?_eq_getElem hj, by simpa using hmark⟩, fun k node hk hnode => ?_⟩
  obtain ⟨hlt, rfl⟩ := List.getElem?_eq_some_iff.mp hnode
  simpa using hfirst k hk

theorem Exhausted.fullyMarked (h : Exhausted lst len) : ∀ c ∈ lst, len ≤ c.size → FullyMarked c :=
  fun c hc hfit => findAvailNode_none.mp (h c hc hfit)

theorem getFilePathLoop_over {c : FileClass} (h : len ≤ c.size → FullyMarked c)
    (cs : List FileClass) (i : Nat) :
    (getFilePathLoop (c :: cs) i len).2.2 =
      markFull len c :: (getFilePathLoop cs (i + 1) len).2.2 := by
  by_cases hfit : len ≤ c.size
  · have hav := findAvailNode_none.mpr (h hfit)
    simp [getFilePathLoop, markFull, hfit, hav, h hfit]
  · simp [getFilePathLoop, markFull, hfit]

/-- The classes before the chosen one were passed over, and the others are untouched. -/
theorem getFilePathLoop_before (h : (getFilePathLoop lst i len).1 = some (k, j)) :
    (getFilePathLoop lst i len).2.2 =
      (lst.take (k - i)).map (markFull len) ++ lst.drop (k - i) := by
  induction lst generalizing i with
  | nil => simp [getFilePathLoop] at h
  | cons c cs ih =>
    by_cases hskip : len ≤ c.size → FullyMarked c
    · have hskip' : len ≤ c.size → findAvailNode c.paths = none :=
        fun hfit => findAvailNode_none.mpr (hskip hfit)
      rw [(getFilePathLoop_skip hskip' cs i).1] at h
      obtain ⟨_, hle, _⟩ := getFilePathLoop_some h
      have hsucc : k - i = (k - (i + 1)) + 1 := by omega
      rw [getFilePathLoop_over hskip, ih h, hsucc]
      rfl
    · obtain ⟨hfit, hfull⟩ := Classical.not_imp.mp hskip
      obtain ⟨j', hj⟩ := Option.ne_none_iff_exists'.mp (mt findAvailNode_none.mp hfull)
      simp only [getFilePathLoop, hfit, hj, if_true, Option.some.injEq, Prod.mk.injEq] at h ⊢
      obtain ⟨rfl, _⟩ := h
      simp

theorem getFilePathLoop_all (h : (getFilePathLoop lst i len).1 = none) :
    (getFilePathLoop lst i len).2.2 = lst.map (markFull len) := by
  induction lst generalizing i with
  | nil => rfl
  | cons c cs ih =>
    obtain ⟨hex, _⟩ := getFilePathLoop_none h
    have hskip := hex c List.mem_cons_self
    rw [(getFilePathLoop_skip hskip cs i).1] at h
    rw [getFilePathLoop_over fun hfit => findAvailNode_none.mp (hskip hfit), ih h]
    rfl

/-- In a table with ascending sizes an earlier class is a smaller one. -/
theorem ascending_le {c d : FileClass} (hasc : lst.Pairwise fun c d => c.size < d.size)
    (hc : lst[i]? = some c) (hd : lst[k]? = some d) (h : i ≤ k) : c.size ≤ d.size := by
  obtain ⟨hi, rfl⟩ := List.getElem?_eq_some_iff.mp hc
  obtain ⟨hk, rfl⟩ := List.getElem?_eq_some_iff.mp hd
  rcases Nat.eq_or_lt_of_le h with rfl | hlt
  · exact Nat.le_refl _
  · exact Nat.le_of_lt (List.pairwise_iff_getElem.mp hasc i k hi hk hlt)

/-- `get_file_path` returns the first unmarked node of the first class that fits
and has one, with the size of that class, or no node when there is none. It notes
the fitting classes it found full, and changes nothing else. -/
theorem get_file_path_first_fit (s : St γ) (len : Nat) :
    ∃ node len' lst', getFilePath len s = .ok (node, len') { s with fileLst := lst' } ∧
      (∀ i j, node = some (i, j) → ∃ c, s.fileLst[i]? = some c ∧ len ≤ c.size ∧
        FirstUnmarked c.paths j ∧ len' = c.size ∧
        (∀ k d, k < i → s.fileLst[k]? = some d → len ≤ d.size → FullyMarked d) ∧
        lst' = (s.fileLst.take i).map (markFull len) ++ s.fileLst.drop i ∧
        (s.fileLst.Pairwise (fun c d => c.size < d.size) →
          ∀ d ∈ s.fileLst, len ≤ d.size → ¬FullyMarked d → c.size ≤ d.size)) ∧
      (node = none ↔ ∀ c ∈ s.fileLst, len ≤ c.size → FullyMarked c) ∧
      (node = none → len' = len ∧ lst' = s.fileLst.map (markFull len)) ∧
      lst'.map FileClass.paths = s.fileLst.map FileClass.paths := by
  refine ⟨_, _, _, rfl, fun i j hnode => ?_, ⟨fun hnode => ?_, fun hfull => ?_⟩,
    fun hnode => ⟨(getFilePathLoop_none hnode).2, getFilePathLoop_all hnode⟩,
    (getFilePathLoop_searched _ _ _).paths⟩
  · obtain ⟨c, _, hfit, hlen⟩ := getFilePathLoop_some hnode
    have hfirst : ∀ k d, k < i → s.fileLst[k]? = some d → len ≤ d.size → FullyMarked d :=
      fun k d hk hd hle => findAvailNode_none.mp (hfit.first k d hk hd hle)
    refine ⟨c, hfit.found, hfit.fits, findAvailNode_some hfit.avail, hlen, hfirst,
      getFilePathLoop_before hnode, fun hasc d hd hle hroom => ?_⟩
    obtain ⟨k, hk⟩ := List.mem_iff_getElem?.mp hd
    refine ascending_le hasc hfit.found hk (Nat.le_of_not_lt fun hlt => ?_)
    exact hroom (hfirst k d hlt hk hle)
  · exact (getFilePathLoop_none hnode).1.fullyMarked
  · cases hnode : (getFilePathLoop s.fileLst 0 len).1 with
    | none => rfl
    | some node =>
      obtain ⟨c, _, hfit, _⟩ := getFilePathLoop_some hnode
      have hnone := findAvailNode_none.mpr (hfull c (List.mem_of_getElem? hfit.found) hfit.fits)
      exact absurd (hfit.avail.symm.trans hnone) (Option.some_ne_none _)

end Gobbler.Proofs
