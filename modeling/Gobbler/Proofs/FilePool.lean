import Gobbler.Lib.Slots
import Gobbler.Proofs.Records

namespace Gobbler.Proofs

variable {γ : Type} {w : World γ} {table : FileTable} {ps : Nat} {b : Book} {x : Option Halt}
  {l : Ledger}

/-- A node whose mark is set. -/
def inUse (node : FileNode) : Bool := node.alloc ≠ 0

def markedCount (c : FileClass) : Nat := c.paths.countP inUse

/-- Node `p.2` of class `p.1` is marked. -/
def IsMarked (lst : List FileClass) (p : Nat × Nat) : Prop :=
  ∃ c, lst[p.1]? = some c ∧ Slots.Used inUse c.paths p.2

/-- The pool agrees with the tracker. -/
structure PoolSound (l : Ledger) : Prop where
  segment : ∀ c ∈ l.fileLst, Slots.Initial inUse c.paths
  count : (l.fileLst.map markedCount).sum = (recordsOf .file l).length
  given : ∀ p, p ∈ l.given ↔ IsMarked l.fileLst p
  once : l.given.Nodup
  each : l.given.length = (recordsOf .file l).length
  filled : ∀ c ∈ l.fileLst, c.filled = 1 → findAvailNode c.paths = none

theorem findAvailNode_eq (paths : List FileNode) :
    findAvailNode paths = Slots.firstFree inUse paths := by
  unfold findAvailNode Slots.firstFree
  congr 1
  funext node
  by_cases h : node.alloc = 0 <;> simp [inUse, h]

theorem isMarked_iff (lst : List FileClass) (p : Nat × Nat) :
    IsMarked lst p ↔
      ∃ paths, (lst.map FileClass.paths)[p.1]? = some paths ∧ Slots.Used inUse paths p.2 := by
  simp only [List.getElem?_map, Option.map_eq_some_iff]
  constructor
  · intro hq
    obtain ⟨c, hc, hu⟩ := hq
    exact ⟨c.paths, ⟨c, hc, rfl⟩, hu⟩
  · rintro ⟨_, ⟨c, hc, rfl⟩, hu⟩
    exact ⟨c, hc, hu⟩

/-- A search changes no mark. -/
theorem PoolSearched.isMarked {lst lst' : List FileClass} (h : PoolSearched lst lst')
    (p : Nat × Nat) : IsMarked lst' p ↔ IsMarked lst p := by
  rw [isMarked_iff, isMarked_iff, h.paths]

theorem PoolSearched.mem {lst lst' : List FileClass} (h : PoolSearched lst lst') {c' : FileClass}
    (hc : c' ∈ lst') : ∃ c ∈ lst, Searched c c' := by
  induction h with
  | nil => simp at hc
  | cons hs _ ih =>
    rcases List.mem_cons.mp hc with rfl | hc
    · exact ⟨_, List.mem_cons_self, hs⟩
    · obtain ⟨c, hm, hs'⟩ := ih hc
      exact ⟨c, List.mem_cons_of_mem _ hm, hs'⟩

theorem PoolSearched.get {lst lst' : List FileClass} (h : PoolSearched lst lst') {i : Nat}
    {c : FileClass} (hi : lst[i]? = some c) : ∃ c', lst'[i]? = some c' ∧ Searched c c' := by
  induction h generalizing i with
  | nil => simp at hi
  | cons hs _ ih =>
    cases i with
    | zero =>
      simp only [List.getElem?_cons_zero, Option.some.injEq] at hi
      exact ⟨_, rfl, hi ▸ hs⟩
    | succ i => exact ih hi

theorem PoolSearched.counts {lst lst' : List FileClass} (h : PoolSearched lst lst') :
    lst'.map markedCount = lst.map markedCount := by
  have hc : ∀ l : List FileClass, l.map markedCount = (l.map FileClass.paths).map (·.countP inUse) :=
    fun l => by simp [markedCount, Function.comp_def]
  rw [hc, hc, h.paths]

/-- A search leaves the pool sound. -/
theorem PoolSound.searched (h : PoolSound l) {l' : Ledger}
    (hp : PoolSearched l.fileLst l'.fileLst) (hg : l'.given = l.given)
    (hr : recordsOf .file l' = recordsOf .file l) : PoolSound l' := by
  refine ⟨?_, ?_, ?_, hg ▸ h.once, ?_, ?_⟩
  · intro c' hc'
    obtain ⟨c, hc, hs⟩ := hp.mem hc'
    exact hs.paths ▸ h.segment c hc
  · rw [hp.counts, hr]
    exact h.count
  · intro p
    rw [hg, hp.isMarked]
    exact h.given p
  · rw [hg, hr]
    exact h.each
  · intro c' hc' hf
    obtain ⟨c, hc, hs⟩ := hp.mem hc'
    rw [hs.paths]
    rcases hs.filled with hsame | ⟨_, hfull⟩
    · exact h.filled c hc (hsame ▸ hf)
    · exact hfull

/-- The class whose node is marked. -/
def markClass (j : Nat) (c : FileClass) : FileClass :=
  { c with paths := c.paths.modify j fun node => { node with alloc := 1 } }

theorem markNode_one (lst : List FileClass) (i j : Nat) :
    markNode lst i j 1 = lst.modify i (markClass j) := rfl

theorem isMarked_markNode {lst : List FileClass} {i j : Nat} {c : FileClass} {node : FileNode}
    (hi : lst[i]? = some c) (hj : c.paths[j]? = some node) (p : Nat × Nat) :
    IsMarked (markNode lst i j 1) p ↔ p = (i, j) ∨ IsMarked lst p := by
  rw [markNode_one]
  by_cases hpi : p.1 = i
  · have hmod : (lst.modify i (markClass j))[i]? = some (markClass j c) :=
      Slots.getElem?_modify_self _ hi
    have hused : Slots.Used inUse (markClass j c).paths p.2 ↔ p.2 = j ∨ Slots.Used inUse c.paths p.2 :=
      Slots.used_modify hj (fun _ => rfl) p.2
    simp only [IsMarked, hmod, hpi, hi, Option.some.injEq, exists_eq_left', Prod.ext_iff, true_and]
    exact hused
  · simp only [IsMarked, Slots.getElem?_modify_ne (markClass j) hpi, Prod.ext_iff, hpi, false_and,
      false_or]

/-- Marking the first free node of a class for a new record keeps the pool sound. -/
theorem PoolSound.marked (h : PoolSound l) {i j : Nat} {c : FileClass}
    (hi : l.fileLst[i]? = some c) (hj : findAvailNode c.paths = some j) {l' : Ledger}
    (hl : l'.fileLst = markNode l.fileLst i j 1) (hg : l'.given = (i, j) :: l.given)
    (hr : (recordsOf .file l').length = (recordsOf .file l).length + 1) : PoolSound l' := by
  have hfirst := hj
  rw [findAvailNode_eq] at hfirst
  obtain ⟨⟨node, hnode, hfree⟩, _⟩ := Slots.firstFree_spec hfirst
  have hclass : ∀ c' ∈ l'.fileLst, c' = markClass j c ∨ c' ∈ l.fileLst := by
    intro c' hc'
    rw [hl, markNode_one] at hc'
    obtain ⟨k, hk⟩ := List.mem_iff_getElem?.mp hc'
    by_cases hki : k = i
    · rw [hki, Slots.getElem?_modify_self _ hi, Option.some.injEq] at hk
      exact .inl hk.symm
    · rw [Slots.getElem?_modify_ne _ hki] at hk
      exact .inr (List.mem_of_getElem? hk)
  have hmem : c ∈ l.fileLst := List.mem_of_getElem? hi
  have hunmarked : ¬IsMarked l.fileLst (i, j) := by
    intro hq
    obtain ⟨c', hc', node', hnode', hu⟩ := hq
    rw [hi, Option.some.injEq] at hc'
    subst hc'
    rw [hnode, Option.some.injEq] at hnode'
    subst hnode'
    simp [hfree] at hu
  refine ⟨?_, ?_, ?_, ?_, ?_, ?_⟩
  · intro c' hc'
    rcases hclass c' hc' with rfl | hold
    · exact (h.segment c hmem).modify hfirst fun _ => rfl
    · exact h.segment c' hold
  · rw [hl, hr, ← h.count, markNode_one]
    exact Slots.sum_modify markedCount _ hi (Slots.countP_modify hnode hfree fun _ => rfl)
  · intro p
    rw [hg, hl, isMarked_markNode hi hnode, List.mem_cons, h.given]
  · rw [hg]
    exact List.nodup_cons.mpr ⟨fun hm => hunmarked ((h.given _).mp hm), h.once⟩
  · rw [hg, hr, List.length_cons, h.each]
  · intro c' hc' hf
    rcases hclass c' hc' with rfl | hold
    · have hnone := h.filled c hmem hf
      rw [hj] at hnone
      cases hnone
    · exact h.filled c' hold hf

theorem PoolSound.taken (h : PoolSound b.toLedger) (hc : 0 ≤ b.curr) {lst : List FileClass}
    {r : AllocRec} {node : Option (Nat × Nat)} (hg : Granted b lst r.type r.len node) :
    PoolSound (taken ps b.toLedger lst r node) := by
  have hrec : allRecords (Proofs.taken ps b.toLedger lst r node) = allRecords b.toLedger ++ [r] :=
    allRecords_taken hc
  generalize htype : r.type = type at hg
  generalize r.len = len at hg
  cases hg with
  | anon _ =>
    refine h.searched (PoolSearched.refl _) rfl ?_
    simp [recordsOf, hrec, htype]
  | @file _ i j _ d _ pool fit =>
    obtain ⟨d', hd', hs⟩ := pool.get fit.found
    have hsearched : PoolSound (Proofs.searched (counted b.toLedger) lst) :=
      h.searched pool rfl rfl
    refine hsearched.marked hd' (hs.paths ▸ fit.avail) rfl rfl ?_
    have hsame : allRecords (Proofs.searched (counted b.toLedger) lst) = allRecords b.toLedger := rfl
    simp [recordsOf, hrec, htype, hsame]

theorem PoolSound.move (h : PoolSound b.toLedger) (ht : Tracked b.toLedger)
    (hm : LedgerMove w b x l) : PoolSound l := by
  cases hm with
  | same => exact h
  | phase _ =>
    have hrec : recordsOf .file (phased b.toLedger) = recordsOf .file b.toLedger := by
      rw [recordsOf, allRecords_phased ht]
      rfl
    exact h.searched (PoolSearched.refl _) rfl hrec
  | request request =>
    cases request with
    | refused _ _ _ pool => exact h.searched pool rfl rfl
    | served _ granted _ track _ => exact h.taken track.1 granted
  | aborted aborted =>
    cases aborted with
    | early _ pool => exact h.searched pool rfl rfl
    | full granted _ => exact h.searched granted.pool rfl rfl

/-- No move takes a mark back. -/
theorem LedgerMove.marks (hm : LedgerMove w b x l) {p : Nat × Nat} (h : IsMarked b.fileLst p) :
    IsMarked l.fileLst p := by
  cases hm with
  | same => exact h
  | phase _ => exact h
  | request request =>
    cases request with
    | refused _ _ _ pool => exact (pool.isMarked p).mpr h
    | @served lst r node _ granted _ _ _ =>
      generalize r.type = type at granted
      generalize r.len = len at granted
      cases granted with
      | anon _ => exact h
      | file _ pool fit =>
        obtain ⟨d', hd', hs⟩ := pool.get fit.found
        have hj := fit.avail
        rw [findAvailNode_eq, ← hs.paths] at hj
        obtain ⟨⟨node, hnode, _⟩, _⟩ := Slots.firstFree_spec hj
        exact (isMarked_markNode hd' hnode p).mpr (.inr ((pool.isMarked p).mpr h))
  | aborted aborted =>
    cases aborted with
    | early _ pool => exact (pool.isMarked p).mpr h
    | full granted _ => exact (granted.pool.isMarked p).mpr h

theorem booted_poolSound (table : FileTable) (opts : List Opt) (mem : Nat → UInt8) (gen : γ) :
    PoolSound (view (booted table opts mem gen)).book.toLedger := by
  have hnode : ∀ c ∈ (view (booted table opts mem gen)).book.fileLst, ∀ node ∈ c.paths,
      inUse node = false := by
    intro c hc node hn
    obtain ⟨e, _, rfl⟩ := List.mem_map.mp hc
    obtain ⟨path, _, rfl⟩ := List.mem_map.mp hn
    rfl
  have hfilled : ∀ c ∈ (view (booted table opts mem gen)).book.fileLst, c.filled = 0 := by
    intro c hc
    obtain ⟨e, _, rfl⟩ := List.mem_map.mp hc
    rfl
  refine ⟨?_, ?_, ?_, List.nodup_nil, rfl, ?_⟩
  · intro c hc i j a b _ _ hb hu
    rw [hnode c hc b (List.mem_of_getElem? hb)] at hu
    cases hu
  · refine List.sum_eq_zero fun n hn => ?_
    obtain ⟨c, hc, rfl⟩ := List.mem_map.mp hn
    exact List.countP_eq_zero.mpr fun node hm => by simp [hnode c hc node hm]
  · intro p
    refine ⟨fun h => absurd h List.not_mem_nil, ?_⟩
    intro hq
    obtain ⟨c, hc, node, hn, hu⟩ := hq
    rw [hnode c (List.mem_of_getElem? hc) node (List.mem_of_getElem? hn)] at hu
    cases hu
  · intro c hc hf
    rw [hfilled c hc] at hf
    cases hf

/-- The pool of the files is sound in every state of a run, and a mark once set
stays set. -/
theorem file_pool_sound (w : World γ) (table : FileTable) (opts : List Opt) (mem : Nat → UInt8)
    (gen : γ) (n k : Nat) :
    PoolSound (run w table opts mem gen n).st.toLedger ∧
      ∀ p, IsMarked (run w table opts mem gen n).st.fileLst p →
        IsMarked (run w table opts mem gen (n + k)).st.fileLst p := by
  refine ⟨?_, fun p => ?_⟩
  · refine (run_invariant w table opts mem gen
      (I := fun v => Tracked v.book.toLedger ∧ PoolSound v.book.toLedger)
      ⟨booted_tracked table opts mem gen, booted_poolSound table opts mem gen⟩ ?_ n).2
    intro v v' _ _ hq hm
    obtain ⟨ht, hp⟩ := hq
    exact ⟨ht.move hm.ledger, hp.move ht hm.ledger⟩
  · exact System.along (R := fun s t : Machine γ => IsMarked s.st.fileLst p → IsMarked t.st.fileLst p)
      (fun _ h => h) (fun h h' hm => h' (h hm))
      (fun m => (run_turned w table opts mem gen m).move.ledger.marks) n k

end Gobbler.Proofs
