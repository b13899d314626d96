import Gobbler.Proofs.FileGen
import Gobbler.Proofs.FilePool

namespace Gobbler.Proofs
open Effect FileGen

variable {γ : Type} {w : World γ} {table : FileTable} {opts : List Opt} {mem : Nat → UInt8} {gen : γ}
  {b : Book} {x : Option Halt} {l : Ledger}

/-- The mapping is no longer than the file of the node. -/
def Backed (table : FileTable) (r : AllocRec) (p : Nat × Nat) : Prop :=
  ∃ c, table.classes[p.1]? = some c ∧ p.2 < c.2.length ∧ r.len ≤ c.1

def pathsOf (c : FileClass) : List String := c.paths.map FileNode.path

/-- The file records and the nodes handed out belong together, one by one. -/
structure Filed (table : FileTable) (l : Ledger) : Prop where
  sizes : l.fileLst.map FileClass.size = table.classes.map Prod.fst
  paths : l.fileLst.map pathsOf = table.classes.map Prod.snd
  backed : List.Forall₂ (Backed table) (recordsOf .file l) l.given.reverse

theorem modify_paths (nodes : List FileNode) (j : Nat) (allocSuc : Int) :
    (nodes.modify j fun node => { node with alloc := allocSuc }).map FileNode.path =
      nodes.map FileNode.path := by
  apply List.ext_getElem?
  intro k
  simp only [List.getElem?_map, List.getElem?_modify]
  cases nodes[k]? with
  | none => rfl
  | some node => by_cases h : j = k <;> simp [h]

theorem markNode_paths (lst : List FileClass) (i j : Nat) (allocSuc : Int) :
    (markNode lst i j allocSuc).map pathsOf = lst.map pathsOf := by
  apply List.ext_getElem?
  intro k
  simp only [markNode, List.getElem?_map, List.getElem?_modify]
  cases lst[k]? with
  | none => rfl
  | some c => by_cases h : i = k <;> simp [h, pathsOf, modify_paths]

theorem PoolSearched.names {lst lst' : List FileClass} (h : PoolSearched lst lst') :
    lst'.map pathsOf = lst.map pathsOf := by
  have hpaths := congrArg (List.map (List.map FileNode.path)) h.paths
  rwa [List.map_map, List.map_map] at hpaths

theorem Filed.searched (h : Filed table l) {l' : Ledger} (hp : PoolSearched l.fileLst l'.fileLst)
    (hr : recordsOf .file l' = recordsOf .file l) (hg : l'.given = l.given) : Filed table l' :=
  ⟨hp.sizes.trans h.sizes, hp.names.trans h.paths, hr ▸ hg ▸ h.backed⟩

/-- The class a search ends with is one of the table, with room for the node. -/
theorem Filed.fit (h : Filed table l) {len i j : Nat} {d : FileClass}
    (hf : FirstFit l.fileLst len d i j) :
    ∃ c, table.classes[i]? = some c ∧ j < c.2.length ∧ d.size = c.1 := by
  have hsize : (table.classes.map Prod.fst)[i]? = some d.size := by
    rw [← h.sizes, List.getElem?_map, hf.found]
    rfl
  have hpaths : (table.classes.map Prod.snd)[i]? = some (pathsOf d) := by
    rw [← h.paths, List.getElem?_map, hf.found]
    rfl
  have hj : j < d.paths.length := by
    have hav := hf.avail
    rw [findAvailNode, List.findIdx?_eq_some_iff_getElem] at hav
    exact hav.1
  rw [List.getElem?_map, Option.map_eq_some_iff] at hsize hpaths
  obtain ⟨c, hc, hsize⟩ := hsize
  obtain ⟨c', hc', hpaths⟩ := hpaths
  rw [hc, Option.some.injEq] at hc'
  subst hc'
  refine ⟨c, hc, ?_, hsize.symm⟩
  rwa [hpaths, pathsOf, List.length_map]

theorem Filed.taken (h : Filed table b.toLedger) (hc : 0 ≤ b.curr) {lst : List FileClass}
    {r : AllocRec} {node : Option (Nat × Nat)} (hg : Granted b lst r.type r.len node) (ps : Nat) :
    Filed table (taken ps b.toLedger lst r node) := by
  have hrec : allRecords (Proofs.taken ps b.toLedger lst r node) = allRecords b.toLedger ++ [r] :=
    allRecords_taken hc
  generalize htype : r.type = type at hg
  generalize hlen : r.len = len at hg
  cases hg with
  | anon _ =>
    refine h.searched (PoolSearched.refl _) ?_ rfl
    simp [recordsOf, hrec, htype]
  | @file _ i j _ d _ pool fit =>
    obtain ⟨c, hc, hj, hsize⟩ := h.fit fit
    have hfile : recordsOf .file (Proofs.taken ps b.toLedger lst r (some (i, j))) =
        recordsOf .file b.toLedger ++ [r] := by
      simp [recordsOf, hrec, htype]
    refine ⟨?_, ?_, ?_⟩
    · exact (markNode_sizes lst i j 1).trans (pool.sizes.trans h.sizes)
    · exact (markNode_paths lst i j 1).trans (pool.names.trans h.paths)
    · change List.Forall₂ _ _ ((i, j) :: b.given).reverse
      rw [hfile, List.reverse_cons]
      have hback : Backed table r (i, j) := ⟨c, hc, hj, hlen ▸ hsize ▸ clip_le _ _⟩
      exact List.rel_append h.backed (.cons hback .nil)

theorem Filed.move (h : Filed table b.toLedger) (ht : Tracked b.toLedger) (hm : LedgerMove w b x l) :
    Filed table l := by
  cases hm with
  | same => exact h
  | phase _ =>
    have hrec : recordsOf .file (phased b.toLedger) = recordsOf .file b.toLedger := by
      rw [recordsOf, allRecords_phased ht]
      rfl
    exact h.searched (PoolSearched.refl _) hrec rfl
  | request request =>
    cases request with
    | refused _ _ _ pool => exact h.searched pool rfl rfl
    | served _ granted _ track _ => exact h.taken track.1 granted _
  | aborted aborted =>
    cases aborted with
    | early _ pool => exact h.searched pool rfl rfl
    | full granted _ => exact h.searched granted.pool rfl rfl

theorem run_poolSound (w : World γ) (table : FileTable) (opts : List Opt) (mem : Nat → UInt8) (gen : γ)
    (n : Nat) : PoolSound (run w table opts mem gen n).st.toLedger := by
  refine (run_invariant w table opts mem gen
    (I := fun v => Tracked v.book.toLedger ∧ PoolSound v.book.toLedger)
    ⟨booted_tracked table opts mem gen, booted_poolSound table opts mem gen⟩ ?_ n).2
  intro v v' _ _ hq hm
  obtain ⟨ht, hp⟩ := hq
  exact ⟨ht.move hm.ledger, hp.move ht hm.ledger⟩

theorem booted_filed (table : FileTable) (opts : List Opt) (mem : Nat → UInt8) (gen : γ) :
    Filed table (view (booted table opts mem gen)).book.toLedger := by
  refine ⟨?_, ?_, .nil⟩
  · change (table.classes.map FileClass.ofTable).map FileClass.size = _
    rw [List.map_map]
    rfl
  · change (table.classes.map FileClass.ofTable).map _ = _
    rw [List.map_map]
    apply List.map_congr_left
    intro c _
    simp [FileClass.ofTable, pathsOf, Function.comp_def]

theorem run_filed (w : World γ) (table : FileTable) (opts : List Opt) (mem : Nat → UInt8) (gen : γ)
    (n : Nat) : Filed table (run w table opts mem gen n).st.toLedger := by
  refine (run_invariant w table opts mem gen
    (I := fun v => Tracked v.book.toLedger ∧ Filed table v.book.toLedger)
    ⟨booted_tracked table opts mem gen, booted_filed table opts mem gen⟩ ?_ n).2
  intro v v' _ _ hq hm
  obtain ⟨ht, hf⟩ := hq
  exact ⟨ht.move hm.ledger, hf.move ht hm.ledger⟩

section image

variable {g : Char} {count k : Nat} {out : Generated}

/-- The names of the files of class `k`. -/
def namesOf (out : Generated) (k : Nat) : List (List Char) :=
  match out.fileLst[k]? with
  | some c => ((out.arrays.lookup c.paths).getD []).filterMap PathEntry.path
  | none => []

/-- The file of a node. -/
def fileOf (out : Generated) (p : Nat × Nat) : List Char := (namesOf out p.1).getD p.2 []

theorem compiled_at {d : SizeEntry} (h : out.fileLst[k]? = some d) :
    (compiled out)[k]? = some (d.size.toNat, (namesOf out k).map String.ofList) := by
  rw [compiled, List.getElem?_map, h]
  simp [namesOf, h]

theorem compiled_get {c : Nat × List String} (h : (compiled out)[k]? = some c) :
    ∃ d, out.fileLst[k]? = some d ∧ c = (d.size.toNat, (namesOf out k).map String.ofList) := by
  have hlt : k < out.fileLst.length := by
    simpa [compiled] using (List.getElem?_eq_some_iff.mp h).1
  refine ⟨_, List.getElem?_eq_getElem hlt, ?_⟩
  rw [compiled_at (List.getElem?_eq_getElem hlt), Option.some.injEq] at h
  exact h.symm

/-- A class of the table has its files on the image. -/
theorem TableCorrect.class {n : Nat} (h : TableCorrect g count n out) {d : SizeEntry}
    (hd : out.fileLst[k]? = some d) :
    (namesOf out k).length = count ∧ (namesOf out k).Nodup ∧
      ∀ name ∈ namesOf out k, out.image name = some (4 * 2 ^ k * unitBytes g) := by
  obtain ⟨paths, hlookup, hlength, himage⟩ := h.array d (List.mem_of_getElem? hd)
  have hpaths : (paths.map (fun p => ⟨0, some p⟩) ++ [⟨0, none⟩] : List PathEntry).filterMap
      PathEntry.path = paths := by
    simp
  have hnames : namesOf out k = paths := by
    simp only [namesOf, hd, hlookup, Option.getD_some, hpaths]
  rw [hnames]
  refine ⟨hlength, ?_, fun name hname => ?_⟩
  · obtain ⟨before, after, harrays, _⟩ := List.lookup_eq_some_iff.mp hlookup
    have hmem : (d.paths, paths.map (fun p => ⟨0, some p⟩) ++ [⟨0, none⟩]) ∈ out.arrays := by
      simp [harrays]
    have hone := (List.nodup_flatMap.mp h.distinct).1 _ hmem
    rwa [hpaths] at hone
  · obtain ⟨bytes, hbytes, hsize⟩ := himage name hname
    rw [h.size k d hd] at hsize
    rw [hbytes]
    exact congrArg some (Int.ofNat_inj.mp hsize)

/-- The node is one of the table. -/
def InTable (count n : Nat) (p : Nat × Nat) : Prop := p.1 < n ∧ p.2 < count

theorem Backed.file {n : Nat} (h : TableCorrect g count n out) (ht : table.classes = compiled out)
    {r : AllocRec} {p : Nat × Nat} (hb : Backed table r p) : InTable count n p ∧
      out.image (fileOf out p) = some (4 * 2 ^ p.1 * unitBytes g) ∧
      r.len ≤ 4 * 2 ^ p.1 * unitBytes g := by
  obtain ⟨c, hc, hp, hlen⟩ := hb
  rw [ht] at hc
  obtain ⟨d, hd, rfl⟩ := compiled_get hc
  obtain ⟨hcount, _, himage⟩ := h.class hd
  rw [List.length_map] at hp
  rw [h.size _ d hd, Int.toNat_natCast] at hlen
  refine ⟨⟨?_, hcount ▸ hp⟩, ?_, hlen⟩
  · exact h.classes ▸ (List.getElem?_eq_some_iff.mp hd).1
  · rw [fileOf, List.getD_eq_getElem _ _ hp]
    exact himage _ (List.getElem_mem hp)

/-- Two nodes of the table are two files of the image. -/
theorem fileOf_inj {n : Nat} (h : TableCorrect g count n out) {p q : Nat × Nat}
    (hp : InTable count n p) (hq : InTable count n q) (heq : fileOf out p = fileOf out q) : p = q := by
  have hfile : ∀ p, InTable count n p → p.2 < (namesOf out p.1).length ∧
      (namesOf out p.1).Nodup ∧ fileOf out p ∈ namesOf out p.1 ∧
      out.image (fileOf out p) = some (4 * 2 ^ p.1 * unitBytes g) := by
    intro p hp
    obtain ⟨hcount, hnodup, himage⟩ :=
      h.class (List.getElem?_eq_getElem (h.classes.symm ▸ hp.1))
    have hlt := hcount.symm ▸ hp.2
    have hmem : fileOf out p ∈ namesOf out p.1 := by
      rw [fileOf, List.getD_eq_getElem _ _ hlt]
      exact List.getElem_mem hlt
    exact ⟨hlt, hnodup, hmem, himage _ hmem⟩
  obtain ⟨hpl, hnodup, _, hpi⟩ := hfile p hp
  obtain ⟨hql, _, _, hqi⟩ := hfile q hq
  have hclass : p.1 = q.1 := by
    rw [heq, hqi, Option.some.injEq] at hpi
    have hpow := Nat.eq_of_mul_eq_mul_right (unitBytes_pos g) hpi
    exact (Nat.pow_right_injective (Nat.le_refl 2)
      (Nat.eq_of_mul_eq_mul_left (by decide : 0 < 4) hpow)).symm
  obtain ⟨i, j⟩ := p
  obtain ⟨i', j'⟩ := q
  subst hclass
  simp only [fileOf, List.getD_eq_getElem _ _ hpl, List.getD_eq_getElem _ _ hql] at heq
  rw [(hnodup.getElem_inj_iff).mp heq]

/-- The bytes of all files of `n` classes. -/
theorem class_bytes (count n unit : Nat) :
    ∑ p ∈ Finset.range n ×ˢ Finset.range count, 4 * 2 ^ p.1 * unit =
      4 * (2 ^ n - 1) * count * unit := by
  rw [Finset.sum_product]
  simp only [Finset.sum_const, Finset.card_range, smul_eq_mul]
  induction n with
  | zero => simp
  | succ n ih =>
    have hpos : 1 ≤ 2 ^ n := Nat.one_le_two_pow
    obtain ⟨m, hm⟩ := Nat.exists_eq_add_of_le hpos
    rw [Finset.sum_range_succ, ih, Nat.pow_succ, hm]
    have htwice : (1 + m) * 2 - 1 = m + (1 + m) := by omega
    rw [htwice, Nat.add_sub_cancel_left]
    ring

theorem backed_inTable {n : Nat} (h : TableCorrect g count n out) (ht : table.classes = compiled out)
    {records : List AllocRec} {nodes : List (Nat × Nat)}
    (hb : List.Forall₂ (Backed table) records nodes) : ∀ p ∈ nodes, InTable count n p := by
  induction hb with
  | nil => simp
  | cons hr _ ih => exact List.forall_mem_cons.mpr ⟨(hr.file h ht).1, ih⟩

theorem backed_sum {n : Nat} (h : TableCorrect g count n out) (ht : table.classes = compiled out)
    {records : List AllocRec} {nodes : List (Nat × Nat)} (hb : List.Forall₂ (Backed table) records nodes)
    (hn : nodes.Nodup) : (records.map AllocRec.len).sum ≤ 4 * (2 ^ n - 1) * count * unitBytes g := by
  have hsum : (records.map AllocRec.len).sum ≤ (nodes.map fun p => 4 * 2 ^ p.1 * unitBytes g).sum := by
    apply List.Forall₂.sum_le_sum
    rw [List.forall₂_map_left_iff, List.forall₂_map_right_iff]
    exact hb.imp fun r p hrp => (hrp.file h ht).2.2
  have hin : nodes.toFinset ⊆ Finset.range n ×ˢ Finset.range count := by
    intro p hp
    have htable := backed_inTable h ht hb p (List.mem_toFinset.mp hp)
    simpa [InTable] using htable
  calc (records.map AllocRec.len).sum
      ≤ (nodes.map fun p => 4 * 2 ^ p.1 * unitBytes g).sum := hsum
    _ = ∑ p ∈ nodes.toFinset, 4 * 2 ^ p.1 * unitBytes g := (List.sum_toFinset _ hn).symm
    _ ≤ ∑ p ∈ Finset.range n ×ˢ Finset.range count, 4 * 2 ^ p.1 * unitBytes g :=
      Finset.sum_le_sum_of_subset hin
    _ = _ := class_bytes count n _

/-- The length of a file of `bytes` bytes after the `ftruncate` of `mmapper`. -/
def ftruncate (succeeds : Bool) (size bytes : Nat) : Nat := if succeeds then size else bytes

/-- The mapping ends inside its file, which was created at least as long. -/
def OnImage (out : Generated) (r : AllocRec) (name : List Char) : Prop :=
  ∃ bytes, out.image name = some bytes ∧ ∀ succeeds,
    r.len ≤ ftruncate succeeds r.len bytes ∧ ftruncate succeeds r.len bytes ≤ bytes

theorem onImage_of_le {out : Generated} {r : AllocRec} {name : List Char} {bytes : Nat}
    (hfile : out.image name = some bytes) (hle : r.len ≤ bytes) : OnImage out r name := by
  refine ⟨bytes, hfile, fun succeeds => ?_⟩
  cases succeeds <;> simp [ftruncate, hle]

/-- The path of a node. -/
def nodePath (lst : List FileClass) (p : Nat × Nat) : Option String :=
  (lst[p.1]?).bind fun c => (pathsOf c)[p.2]?

theorem Filed.nodePath {n : Nat} (hf : Filed table l) (h : TableCorrect g count n out)
    (ht : table.classes = compiled out) {p : Nat × Nat} (hp : InTable count n p) :
    nodePath l.fileLst p = some (String.ofList (fileOf out p)) := by
  have hd := List.getElem?_eq_getElem (h.classes.symm ▸ hp.1 : p.1 < out.fileLst.length)
  obtain ⟨hcount, _, _⟩ := h.class hd
  have hclass : (l.fileLst.map pathsOf)[p.1]? = some ((namesOf out p.1).map String.ofList) := by
    rw [hf.paths, ht, List.getElem?_map, compiled_at hd]
    rfl
  have hlt : p.2 < (namesOf out p.1).length := hcount.symm ▸ hp.2
  rw [List.getElem?_map, Option.map_eq_some_iff] at hclass
  obtain ⟨c, hc, hpaths⟩ := hclass
  simp [Proofs.nodePath, hc, hpaths, fileOf, hlt]

/-- Every file record lies inside the file of its node, these files are all
different, and they are on the image. -/
structure FilesUsed (out : Generated) (l : Ledger) (names : List (List Char)) : Prop where
  nodes : l.given.reverse.map (Proofs.nodePath l.fileLst) = names.map fun name => some (String.ofList name)
  once : names.Nodup
  inside : List.Forall₂ (OnImage out) (recordsOf .file l) names

/-- The files of the records, and their bytes. -/
theorem files_of_run {n : Nat} (h : TableCorrect g count n out) (ht : table.classes = compiled out)
    (w : World γ) (opts : List Opt) (mem : Nat → UInt8) (gen : γ) (m : Nat) :
    (∃ names, FilesUsed out (run w table opts mem gen m).st.toLedger names) ∧
    ((recordsOf .file (run w table opts mem gen m).st.toLedger).map AllocRec.len).sum ≤
      4 * (2 ^ n - 1) * count * unitBytes g := by
  have hfiled := run_filed w table opts mem gen m
  have hback := hfiled.backed
  have hnodes := List.nodup_reverse.mpr (run_poolSound w table opts mem gen m).once
  have htable := backed_inTable h ht hback
  refine ⟨⟨_, ⟨?_, hnodes.map_on (f := fileOf out) ?_, ?_⟩⟩, backed_sum h ht hback hnodes⟩
  · rw [List.map_map]
    exact List.map_congr_left fun p hp => hfiled.nodePath h ht (htable p hp)
  · intro p hp q hq heq
    exact fileOf_inj h (htable p hp) (htable q hq) heq
  · rw [List.forall₂_map_right_iff]
    exact hback.imp fun r p hr => onImage_of_le (hr.file h ht).2.1 (hr.file h ht).2.2

end image

end Gobbler.Proofs
