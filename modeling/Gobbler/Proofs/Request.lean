import Gobbler.Proofs.Random
import Gobbler.Proofs.Pool

namespace Gobbler.Proofs
open Effect

variable {γ : Type} {w : World γ} {A : MemType → FileClass → Prop}

def withLedger (b : Book) (l : Ledger) : Book := { b with toLedger := l }

/-- A request was counted by `randomize_alloc_type`. -/
def counted (l : Ledger) : Ledger := { l with typeCnt := l.typeCnt + 1 }

/-- From `s` to `t` the ledger became `l`; the rest of the bookkeeping and the
bytes of the mappings are as before. -/
structure Moved (s t : St γ) (l : Ledger) : Prop where
  book : t.toBook = withLedger s.toBook l
  memory : t.toMemory = s.toMemory
  calls : CallsSafe s t
  reads : s.cpuReads ≤ t.cpuReads

theorem Quiet.moved {s t : St γ} (h : Quiet s t) : Moved s t s.toLedger :=
  ⟨h.book, h.memory, h.calls, h.reads⟩

theorem Moved.ledger {s t : St γ} {l : Ledger} (h : Moved s t l) : t.toLedger = l :=
  congrArg Book.toLedger h.book

theorem Moved.trans {s t u : St γ} {l l' : Ledger} (h : Moved s t l) (h' : Moved t u l')
    (hl : l.fileLst.length = s.fileLst.length) : Moved s u l' := by
  refine ⟨?_, h'.memory.trans h.memory, h.calls.trans ?_ h'.calls, h.reads.trans h'.reads⟩
  · rw [h'.book, h.book]
    rfl
  · rw [h.ledger, hl]

theorem Moved.quiet {s t u : St γ} {l : Ledger} (h : Moved s t l) (h' : Quiet t u)
    (hl : l.fileLst.length = s.fileLst.length) : Moved s u l := by
  have hm := h'.moved
  rw [h.ledger] at hm
  exact h.trans hm hl

/-- The types `randomize_alloc_type` may return. -/
def Chosen (typeCnt : Nat) (anonSlice : Int) (type : MemType) : Prop :=
  if anonSlice < 0 then type = countedType typeCnt
  else if anonSlice = 0 then type = .file
  else type = .file ∨ type = .anon

theorem Chosen.cases {typeCnt : Nat} {anonSlice : Int} {type : MemType}
    (h : Chosen typeCnt anonSlice type) : type = .file ∨ type = .anon := by
  unfold Chosen countedType at h
  split at h
  · split at h
    · exact .inr h
    · exact .inl h
  · split at h
    · exact .inl h
    · exact h

theorem Chosen.ne_typeMax {typeCnt : Nat} {anonSlice : Int} {type : MemType}
    (h : Chosen typeCnt anonSlice type) : type ≠ .typeMax := by
  rintro rfl
  rcases h.cases with h | h <;> cases h

/-- The pool after a search. -/
def searched (l : Ledger) (lst : List FileClass) : Ledger := { l with fileLst := lst }

/-- The page counters after a mapping of `pages` pages. -/
def paged (l : Ledger) (type : MemType) (pages : Nat) : Ledger :=
  { l with
    totalAllocPages := wrap (l.totalAllocPages + pages)
    fileCnt := if type = .file then wrap (l.fileCnt + pages) else l.fileCnt
    anonCnt := if type = .anon then wrap (l.anonCnt + pages) else l.anonCnt }

/-- The tracker after a record was appended to the current phase. -/
def recorded (l : Ledger) (r : AllocRec) : Ledger :=
  { l with allocTrack :=
      Function.update l.allocTrack l.curr.toNat (l.allocTrack l.curr.toNat ++ [r]) }

/-- The pool after the node of a file record was marked. -/
def marked (l : Ledger) (node : Option (Nat × Nat)) : Ledger :=
  match node with
  | some (i, j) => { l with fileLst := markNode l.fileLst i j 1, given := (i, j) :: l.given }
  | none => l

def denied (l : Ledger) : Ledger := { l with refused := l.refused + 1 }

/-- The ledger after a request that was refused. -/
def refusal (l : Ledger) (lst : List FileClass) : Ledger := denied (searched (counted l) lst)

/-- The ledger after a request that was served. -/
def taken (ps : Nat) (l : Ledger) (lst : List FileClass) (r : AllocRec)
    (node : Option (Nat × Nat)) : Ledger :=
  marked (paged (recorded (searched (counted l) lst) r) r.type (r.len / ps)) node

/-- The last class that `randomize_alloc_len` may ask for. -/
def lastAsked (b : Book) : Nat :=
  match b.fileLst with
  | [] => 0
  | c :: _ => if wrap (b.maxLimit * pageSize) ≤ c.size then 0 else b.speed

/-- A class whose size a request may ask for. -/
def Asked (b : Book) (c : FileClass) : Prop := ∃ i, i ≤ lastAsked b ∧ b.fileLst[i]? = some c

/-- The length and the node of a mapping about to be made for the size of a
class with `A`. -/
inductive GrantedFor (A : MemType → FileClass → Prop) (b : Book) :
    List FileClass → MemType → Nat → Option (Nat × Nat) → Prop
  | anon {c : FileClass} (asked : A .anon c) :
    GrantedFor A b b.fileLst .anon (clip b.maxAllocPerPhaseByte c.size) none
  | file {lst : List FileClass} {i j : Nat} {c d : FileClass} (asked : A .file c)
    (pool : PoolSearched b.fileLst lst) (fit : FirstFit b.fileLst c.size d i j) :
    GrantedFor A b lst .file (clip b.maxAllocPerPhaseByte d.size) (some (i, j))

abbrev Granted (b : Book) := GrantedFor (fun _ => Asked b) b

/-- What is left of the count of a transition after a mapping of `pages` pages. -/
def countdown (precision : Bool) (cnt pages : Nat) : Nat :=
  if precision then (if cnt < pages then 0 else cnt - pages) else wrapSub cnt 1

/-- Everything `random_allocator_one` can do when it returns, having asked for
the size of a class with `A`. -/
inductive RequestFor (A : MemType → FileClass → Prop) (ps : Nat) (b : Book) (anonSlice : Int) (cnt : Nat) :
    MemType → Nat → Ledger → Prop
  | refused {lst : List FileClass} {c : FileClass} (chosen : Chosen b.typeCnt anonSlice .file)
    (asked : A .file c) (full : Exhausted b.fileLst c.size)
    (pool : PoolSearched b.fileLst lst) (counter : b.typeCnt + 1 < 2 ^ 31) :
    RequestFor A ps b anonSlice cnt .typeMax cnt (refusal b.toLedger lst)
  | served {lst : List FileClass} {r : AllocRec} {node : Option (Nat × Nat)}
    (chosen : Chosen b.typeCnt anonSlice r.type)
    (granted : GrantedFor A b lst r.type r.len node)
    (addr : r.addr ≠ 0) (track : 0 ≤ b.curr ∧ b.curr < maxAlloc)
    (room : (b.allocTrack b.curr.toNat).length < maxAllocPerSe)
    (counter : b.typeCnt + 1 < 2 ^ 31) :
    RequestFor A ps b anonSlice cnt r.type (countdown b.allocPrecision cnt (r.len / ps))
      (taken ps b.toLedger lst r node)

abbrev Request (ps : Nat) (b : Book) := RequestFor (fun _ => Asked b) ps b

theorem RequestFor.of_typeMax {ps : Nat} {b : Book} {anonSlice : Int} {cnt cnt' : Nat} {l : Ledger}
    (h : RequestFor A ps b anonSlice cnt .typeMax cnt' l) :
    cnt' = cnt ∧ ∃ lst, PoolSearched b.fileLst lst ∧ l = refusal b.toLedger lst := by
  generalize htyp : MemType.typeMax = typ at h
  cases h with
  | refused _ _ _ pool => exact ⟨rfl, _, pool, rfl⟩
  | served chosen => exact absurd htyp.symm chosen.ne_typeMax

/-- Ends of a request before it reaches the tracker. -/
inductive Early (w : World γ) (b : Book) : Halt → Prop
  | forced {h : Halt} (why : Forced w h) : Early w b h
  | overflow (h : 2 ^ 31 ≤ b.typeCnt + 1) : Early w b (.undefined .overflow)
  | track (h : ¬(0 ≤ b.curr ∧ b.curr < maxAlloc)) : Early w b (.undefined .trackIndex)

/-- Everything `random_allocator_one` can do when it does not return. A full
list is noticed only after the pages were counted. -/
inductive AbortedFor (A : MemType → FileClass → Prop) (w : World γ) (b : Book) (anonSlice : Int) :
    Halt → Ledger → Prop
  | early {h : Halt} {typeCnt : Nat} {lst : List FileClass} (why : Early w b h)
    (pool : PoolSearched b.fileLst lst) :
    AbortedFor A w b anonSlice h (searched { b.toLedger with typeCnt := typeCnt } lst)
  | full {lst : List FileClass} {type : MemType} {len : Nat} {node : Option (Nat × Nat)}
    (granted : GrantedFor A b lst type len node)
    (room : maxAllocPerSe ≤ (b.allocTrack b.curr.toNat).length)
    (chosen : Chosen b.typeCnt anonSlice type) (track : 0 ≤ b.curr ∧ b.curr < maxAlloc)
    (counter : b.typeCnt + 1 < 2 ^ 31) :
    AbortedFor A w b anonSlice (.exit "Failed to add new tracker")
      (paged (searched (counted b.toLedger) lst) type (len / w.pageSize))

abbrev Aborted (w : World γ) (b : Book) := AbortedFor (fun _ => Asked b) w b

theorem typeCntSucc_ends (s : St γ) :
    Ends typeCntSucc s (fun _ t => Moved s t (counted s.toLedger) ∧ s.typeCnt + 1 < 2 ^ 31)
      (fun e t => (e = .undefined .overflow ∧ 2 ^ 31 ≤ s.typeCnt + 1) ∧ Quiet s t) := by
  unfold typeCntSucc defined
  simp only [ends_bind, ends_get]
  split
  · exact ⟨⟨rfl, rfl, fun _ h => .inl h, Nat.le_refl _⟩, by assumption⟩
  · exact ⟨⟨rfl, by omega⟩, Quiet.refl s⟩

theorem randomizeAllocType_ends (anonSlice : Int) (s : St γ) :
    Ends (randomizeAllocType w anonSlice) s
      (fun type t => Chosen s.typeCnt anonSlice type ∧
        Moved s t (counted s.toLedger) ∧ s.typeCnt + 1 < 2 ^ 31)
      (fun e t => Early w s.toBook e ∧ Quiet s t) := by
  have hcnt : ∀ (type : MemType) (t : St γ), Chosen s.typeCnt anonSlice type → Quiet s t →
      Ends typeCntSucc t
        (fun _ u => Chosen s.typeCnt anonSlice type ∧ Moved s u (counted s.toLedger) ∧
          s.typeCnt + 1 < 2 ^ 31)
        (fun e u => Early w s.toBook e ∧ Quiet s u) := by
    intro type t hc hq
    refine (typeCntSucc_ends t).mono ?_ ?_
    · intro _ u hq'
      obtain ⟨hu, hroom⟩ := hq'
      have hl : t.toLedger = s.toLedger := hq.moved.ledger
      rw [hl] at hu hroom
      exact ⟨hc, hq.moved.trans hu rfl, hroom⟩
    · intro e u hq'
      obtain ⟨⟨he, hover⟩, hu⟩ := hq'
      subst he
      have hcnt : t.typeCnt = s.typeCnt := congrArg (fun b : Book => b.typeCnt) hq.book
      exact ⟨.overflow (hcnt ▸ hover), hq.trans hu⟩
  unfold randomizeAllocType
  simp only [ends_bind, ends_get]
  by_cases hneg : anonSlice < 0
  · simp only [if_pos hneg, ends_bind, ends_pure]
    exact hcnt (countedType s.typeCnt) s (by simp [Chosen, hneg]) (Quiet.refl s)
  · rw [if_neg hneg]
    by_cases hz : anonSlice = 0
    · simp only [if_neg (not_ne_iff.mpr hz), ends_bind, ends_pure]
      exact hcnt .file s (by simp [Chosen, hz]) (Quiet.refl s)
    · simp only [if_pos hz, ends_bind, ends_pure]
      refine (randLim_quiet (by decide) (by decide) s).mono ?_ ?_
      · intro x t hq'
        obtain ⟨hq, hx⟩ := hq'
        refine hcnt (MemType.ofLong x) t ?_ hq
        simp only [Chosen, if_neg hneg, if_neg hz]
        rcases (show x = 0 ∨ x = 1 by omega) with rfl | rfl
        · exact .inl rfl
        · exact .inr rfl
      · intro e t hq'
        obtain ⟨hq, he⟩ := hq'
        exact ⟨.forced he, hq⟩

/-- What the options and the table guarantee to every request. -/
structure Ready (b : Book) : Prop where
  speed : b.speed < b.fileLst.length
  length : b.fileLst.length < 2 ^ 31

theorem fileSize_ends {s : St γ} {i : Nat} (h : i < s.fileLst.length) :
    Ends (fileSize i) s (fun size t => Quiet s t ∧ size = s.fileLst[i].size)
      (fun _ _ => False) := by
  unfold fileSize note
  simp only [ends_bind, ends_modify, ends_get, List.getElem?_eq_getElem h, ends_pure]
  exact ⟨⟨rfl, rfl, note_safe (c := .fileLst i) h rfl, Nat.le_refl _⟩, trivial⟩

theorem randomizeAllocLenLoop_ends {s : St γ} (hr : Ready s.toBook) (maxReq l i : Nat)
    (hi : i ≤ s.speed) :
    Ends (randomizeAllocLenLoop w maxReq l i) s
      (fun i t => Quiet s t ∧ i ≤ s.speed) (fun _ _ => False) := by
  induction l generalizing s i with
  | zero => exact ⟨Quiet.refl s, hi⟩
  | succ l ih =>
    have hs := hr.speed
    have hlen := hr.length
    unfold randomizeAllocLenLoop
    simp only [ends_bind, ends_get]
    refine (randIntr_quiet (X := fun _ => False) (Nat.zero_le s.speed) (by omega) (by omega)
      s).mono ?_ fun _ _ h => h.2
    intro i t hend
    obtain ⟨hq, hi'⟩ := hend
    have hit : i < t.fileLst.length := by
      rw [hq.fileLst]
      omega
    apply (fileSize_ends hit).imp
    intro size u hend
    obtain ⟨hq', _⟩ := hend
    have hu := hq.trans hq'
    have hspeed : u.speed = s.speed := congrArg (fun b : Book => b.speed) hu.book
    rw [ends_ite]
    refine ⟨fun _ => ?_, fun _ => ⟨hu, hi'.2⟩⟩
    apply (ih (s := u) (hu.book ▸ hr) i (hspeed ▸ hi'.2)).imp
    intro k v hend
    obtain ⟨hq'', hk⟩ := hend
    exact ⟨hu.trans hq'', hspeed ▸ hk⟩

theorem Asked.first {b : Book} (hr : Ready b) : ∃ c, b.fileLst[0]? = some c ∧ Asked b c := by
  have hpos : 0 < b.fileLst.length := Nat.lt_of_le_of_lt (Nat.zero_le _) hr.speed
  exact ⟨b.fileLst[0], List.getElem?_eq_getElem hpos, 0, Nat.zero_le _, List.getElem?_eq_getElem hpos⟩

theorem Asked.mem {b : Book} {c : FileClass} (h : Asked b c) : c ∈ b.fileLst := by
  obtain ⟨i, _, hi⟩ := h
  exact List.mem_of_getElem? hi

theorem lastAsked_eq {b : Book} (h : 0 < b.fileLst.length) :
    lastAsked b = if wrap (b.maxLimit * pageSize) ≤ b.fileLst[0].size then 0 else b.speed := by
  obtain ⟨c, cs, hl⟩ := List.exists_cons_of_length_pos h
  simp only [lastAsked, hl, List.getElem_cons_zero]

/-- A request asks for the size of some class of the table. -/
theorem randomizeAllocLen_ends {s : St γ} (hr : Ready s.toBook) :
    Ends (randomizeAllocLen w) s
      (fun len t => Quiet s t ∧ ∃ c, Asked s.toBook c ∧ len = c.size) (fun _ _ => False) := by
  have hpos : 0 < s.fileLst.length := Nat.lt_of_le_of_lt (Nat.zero_le _) hr.speed
  have hlast := lastAsked_eq hpos
  unfold randomizeAllocLen
  simp only [ends_bind, ends_get]
  apply (fileSize_ends hpos).imp
  intro size t hend
  obtain ⟨hq, hsize⟩ := hend
  rw [ends_ite]
  refine ⟨fun _ => ⟨hq, _, ⟨0, Nat.zero_le _, List.getElem?_eq_getElem hpos⟩, hsize⟩, fun hle => ?_⟩
  rw [if_neg (by rwa [hsize] at hle)] at hlast
  apply (randomizeAllocLenLoop_ends (hq.book ▸ hr) _ _ _ (Nat.zero_le _)).bind
  intro i u hend
  obtain ⟨hq', hi⟩ := hend
  have hu := hq.trans hq'
  have hi' : i ≤ s.speed := by
    have hspeed : t.speed = s.speed := congrArg (fun b : Book => b.speed) hq.book
    omega
  have hlt : i < s.fileLst.length := Nat.lt_of_le_of_lt hi' hr.speed
  apply (fileSize_ends (s := u) (i := i) (by rw [hu.fileLst]; exact hlt)).imp
  intro len v hend
  obtain ⟨hq'', hlen⟩ := hend
  refine ⟨hu.trans hq'', s.fileLst[i], ⟨i, by omega, List.getElem?_eq_getElem hlt⟩, ?_⟩
  rw [hlen]
  simp only [hu.fileLst]

theorem mmapper_ends (type : MemType) (s : St γ) :
    Ends (mmapper w type) s (fun map t => Quiet s t ∧ map ≠ 0)
      (fun e t => Forced w e ∧ Quiet s t) := by
  have hq : Quiet s { s with mmaps := s.mmaps + 1 } :=
    ⟨rfl, rfl, fun _ h => .inl h, Nat.le_refl _⟩
  unfold mmapper
  simp only [ends_bind, ends_get, ends_set]
  by_cases ho : type = .file ∧ w.opens s.mmaps = false
  · simp only [if_pos ho, ends_bind, ends_throw]
    exact ⟨.path ho.2, hq⟩
  · simp only [if_neg ho]
    cases hm : w.mmap s.mmaps with
    | none => exact ⟨.mmap hm, hq⟩
    | some map =>
      rw [ends_ite]
      exact ⟨fun _ => ⟨hq, w.mmap_ne_zero _ _ hm⟩, fun h => ⟨.madvise (by simpa using h), hq⟩⟩

theorem getFilePath_ends (len : Nat) (s : St γ) :
    Ends (getFilePath len) s
      (fun found t => ∃ lst, PoolSearched s.fileLst lst ∧ Moved s t (searched s.toLedger lst) ∧
        ((found.1 = none ∧ Exhausted s.fileLst len) ∨
          ∃ i j d, found = (some (i, j), d.size) ∧ FirstFit s.fileLst len d i j))
      (fun _ _ => False) := by
  unfold getFilePath
  simp only [ends_bind, ends_get, ends_set, ends_pure]
  refine ⟨_, getFilePathLoop_searched s.fileLst 0 len, ⟨rfl, rfl, fun _ h => .inl h, Nat.le_refl _⟩, ?_⟩
  cases hn : (getFilePathLoop s.fileLst 0 len).1 with
  | none => exact .inl ⟨rfl, (getFilePathLoop_none hn).1⟩
  | some node =>
    obtain ⟨d, _, hf, hd⟩ := getFilePathLoop_some (k := node.1) (j := node.2) hn
    exact .inr ⟨node.1, node.2, d, by rw [hd], hf⟩

/-- What `alloc` returns for the size of class `c`, and the ledger it leaves. -/
inductive Allocated (A : MemType → FileClass → Prop) (b : Book) (c : FileClass) :
    MemType → Nat × Nat × Option (Nat × Nat) → Ledger → Prop
  | refused {lst : List FileClass} {len : Nat} (full : Exhausted b.fileLst c.size)
    (pool : PoolSearched b.fileLst lst) :
    Allocated A b c .file (0, len, none) (searched b.toLedger lst)
  | mapped {lst : List FileClass} {type : MemType} {map len : Nat} {node : Option (Nat × Nat)}
    (addr : map ≠ 0) (granted : GrantedFor A b lst type len node) :
    Allocated A b c type (map, len, node) (searched b.toLedger lst)

/-- A mapping that could not be made. -/
def Failed (w : World γ) (s t : St γ) (h : Halt) : Prop :=
  Forced w h ∧ ∃ lst, PoolSearched s.fileLst lst ∧ Moved s t (searched s.toLedger lst)

theorem mapped_ends {s t : St γ} {lst : List FileClass} {c : FileClass} {type : MemType}
    {len : Nat} {node : Option (Nat × Nat)} (hm : Moved s t (searched s.toLedger lst))
    (hp : PoolSearched s.fileLst lst)
    (hg : GrantedFor A s.toBook lst type (clip s.maxAllocPerPhaseByte len) node) :
    Ends (do
        let map ← mmapper w type
        return (map, clip t.maxAllocPerPhaseByte len, node)) t
      (fun r u => ∃ l, Allocated A s.toBook c type r l ∧ Moved s u l)
      (fun e u => Failed w s u e) := by
  have hb : t.maxAllocPerPhaseByte = s.maxAllocPerPhaseByte :=
    (congrArg (fun b : Book => b.maxAllocPerPhaseByte) hm.book).trans rfl
  simp only [ends_bind, ends_pure]
  refine (mmapper_ends type t).mono ?_ ?_
  · intro map u hq'
    obtain ⟨hq, hne⟩ := hq'
    exact ⟨_, .mapped hne (hb.symm ▸ hg), hm.quiet hq hp.length_eq.symm⟩
  · intro e u hq'
    obtain ⟨he, hq⟩ := hq'
    exact ⟨he, lst, hp, hm.quiet hq hp.length_eq.symm⟩

/-- The size of the first class stands for a length of zero. -/
def FirstFor (A : MemType → FileClass → Prop) (lst : List FileClass) : Prop :=
  ∃ d, lst[0]? = some d ∧ ∀ c, A .anon c → c.size = 0 → A .anon d

theorem alloc_anon_ends {s : St γ} (hfirst : FirstFor A s.fileLst) {c : FileClass}
    (ha : A .anon c) :
    Ends (alloc w .anon c.size) s
      (fun r t => ∃ l, Allocated A s.toBook c .anon r l ∧ Moved s t l)
      (fun e t => Failed w s t e) := by
  have hself : Moved s s (searched s.toLedger s.fileLst) := (Quiet.refl s).moved
  unfold alloc
  simp only [if_true, ne_eq, not_true_eq_false, false_and, if_false]
  by_cases hz : c.size = 0
  · obtain ⟨d, hd, had⟩ := hfirst
    obtain ⟨hpos, hget⟩ := List.getElem?_eq_some_iff.mp hd
    rw [if_pos hz, ends_bind]
    refine (fileSize_ends hpos).mono ?_ fun _ _ h => h.elim
    intro size t hq'
    obtain ⟨hq, hsize⟩ := hq'
    rw [hget] at hsize
    subst hsize
    exact mapped_ends (hself.quiet hq rfl) (PoolSearched.refl _) (.anon (had c ha hz))
  · rw [if_neg hz]
    exact mapped_ends hself (PoolSearched.refl _) (.anon ha)

theorem alloc_file_ends {s : St γ} {c : FileClass} (ha : A .file c) :
    Ends (alloc w .file c.size) s
      (fun r t => ∃ l, Allocated A s.toBook c .file r l ∧ Moved s t l)
      (fun e t => Failed w s t e) := by
  unfold alloc
  simp only [reduceCtorEq, if_false, ends_bind, ne_eq, not_false_eq_true, true_and]
  refine (getFilePath_ends c.size s).mono ?_ fun _ _ h => h.elim
  intro found t hq
  obtain ⟨lst, hp, hm, hfound⟩ := hq
  rcases hfound with ⟨hnone, hex⟩ | ⟨i, j, d, rfl, hf⟩
  · rw [if_pos hnone]
    exact ⟨_, .refused hex hp, hm⟩
  · rw [if_neg (by simp)]
    exact mapped_ends hm hp (.file ha hp hf)

/-- What `alloc` does on the size of a class: it finds no node, or it maps. -/
theorem alloc_ends {s : St γ} (hfirst : FirstFor A s.fileLst) {type : MemType}
    (ht : type = .file ∨ type = .anon) {c : FileClass} (ha : A type c) :
    Ends (alloc w type c.size) s
      (fun r t => ∃ l, Allocated A s.toBook c type r l ∧ Moved s t l)
      (fun e t => Failed w s t e) := by
  rcases ht with rfl | rfl
  · exact alloc_file_ends ha
  · exact alloc_anon_ends hfirst ha

/-- `add_new_alloc` appends the record, finds the list full, or has no list. -/
theorem addNewAlloc_ends (address len : Nat) (type : MemType) (s : St γ) :
    Ends (addNewAlloc address len type) s
      (fun r t => (0 ≤ s.curr ∧ s.curr < maxAlloc) ∧
        ((r = 1 ∧ (s.allocTrack s.curr.toNat).length < maxAllocPerSe ∧
            Moved s t (recorded s.toLedger ⟨address, len, type⟩)) ∨
          (r = -1 ∧ maxAllocPerSe ≤ (s.allocTrack s.curr.toNat).length ∧ Quiet s t)))
      (fun e t => e = .undefined .trackIndex ∧ ¬(0 ≤ s.curr ∧ s.curr < maxAlloc) ∧
        Quiet s t) := by
  unfold addNewAlloc currTrack defined
  by_cases hc : 0 ≤ s.curr ∧ s.curr < maxAlloc
  · simp only [ends_bind, ends_get, if_pos hc, ends_pure]
    rw [ends_ite]
    refine ⟨fun h => ⟨hc, .inr ⟨rfl, h, Quiet.refl s⟩⟩, fun h => ?_⟩
    exact ⟨hc, .inl ⟨rfl, Nat.lt_of_not_le h, rfl, rfl, fun _ h => .inl h, Nat.le_refl _⟩⟩
  · simp only [ends_bind, ends_get, if_neg hc, ends_throw]
    exact ⟨trivial, hc, Quiet.refl s⟩

theorem GrantedFor.pool {b : Book} {lst : List FileClass} {type : MemType} {len : Nat}
    {node : Option (Nat × Nat)} (h : GrantedFor A b lst type len node) : PoolSearched b.fileLst lst := by
  cases h with
  | anon _ => exact PoolSearched.refl _
  | file _ pool _ => exact pool

theorem countPages_ends (type : MemType) (pageCnt : Nat) (s : St γ) :
    Ends (countPages type pageCnt) s (fun _ t => Moved s t (paged s.toLedger type pageCnt))
      (fun _ _ => False) :=
  ⟨rfl, rfl, fun _ h => .inl h, Nat.le_refl _⟩

theorem settle_one_ends (node : Option (Nat × Nat)) (s : St γ) :
    Ends (settle node 1) s (fun _ t => Moved s t (marked s.toLedger node))
      (fun _ _ => False) := by
  cases node with
  | none => exact (Quiet.refl s).moved
  | some node => exact ⟨rfl, rfl, fun _ h => .inl h, Nat.le_refl _⟩

theorem settle_full_ends (node : Option (Nat × Nat)) (s : St γ) :
    Ends (settle node (-1)) s (fun _ _ => False)
      (fun e t => e = .exit "Failed to add new tracker" ∧ Quiet s t) := by
  cases node with
  | none => exact ⟨rfl, Quiet.refl s⟩
  | some node => exact ⟨rfl, Quiet.refl s⟩

/-- The part of `random_allocator_one` after a mapping was made. -/
theorem track_ends {s t : St γ} {lst : List FileClass} {anonSlice : Int} {addr len cnt : Nat}
    {type : MemType} {node : Option (Nat × Nat)} (hch : Chosen s.typeCnt anonSlice type)
    (hcnt : s.typeCnt + 1 < 2 ^ 31) (hg : GrantedFor A s.toBook lst type len node) (ha : addr ≠ 0)
    (hm : Moved s t (searched (counted s.toLedger) lst)) :
    Ends (do
        let allocSuc ← addNewAlloc addr len type
        countPages type (len / w.pageSize)
        settle node allocSuc
        let s ← get
        if s.allocPrecision then
          return (type, if cnt < len / w.pageSize then 0 else cnt - len / w.pageSize)
        else return (type, wrapSub cnt 1)) t
      (fun r u => ∃ l, RequestFor A w.pageSize s.toBook anonSlice cnt r.1 r.2 l ∧ Moved s u l)
      (fun e u => ∃ l, AbortedFor A w s.toBook anonSlice e l ∧ Moved s u l) := by
  have hl : lst.length = s.fileLst.length := hg.pool.length_eq.symm
  have hcurr : t.curr = s.curr := (congrArg Ledger.curr hm.ledger).trans rfl
  have htrack : t.allocTrack = s.allocTrack := (congrArg Ledger.allocTrack hm.ledger).trans rfl
  rw [ends_bind]
  refine (addNewAlloc_ends addr len type t).mono ?_ ?_
  · intro suc u hq'
    obtain ⟨hin, hu⟩ := hq'
    rw [hcurr] at hin hu
    rw [htrack] at hu
    rw [ends_bind]
    refine (countPages_ends type (len / w.pageSize) u).mono ?_ fun _ _ h => h.elim
    intro _ v hv
    rw [ends_bind]
    rcases hu with ⟨rfl, hroom, hrec⟩ | ⟨rfl, hfull, hq⟩
    · refine (settle_one_ends node v).mono ?_ fun _ _ h => h.elim
      intro _ x hx
      rw [hm.ledger] at hrec
      rw [hrec.ledger] at hv
      rw [hv.ledger] at hx
      have hend := ((hm.trans hrec hl).trans hv hl).trans hx hl
      have hprec : x.allocPrecision = s.allocPrecision :=
        (congrArg (fun b : Book => b.allocPrecision) hend.book).trans rfl
      have hreq : RequestFor A w.pageSize s.toBook anonSlice cnt type
          (countdown s.allocPrecision cnt (len / w.pageSize))
          (taken w.pageSize s.toLedger lst ⟨addr, len, type⟩ node) :=
        .served (r := ⟨addr, len, type⟩) hch hg ha hin hroom hcnt
      simp only [ends_bind, ends_get, hprec]
      unfold countdown at hreq
      split
      · rw [if_pos (by assumption)] at hreq
        exact ⟨_, hreq, hend⟩
      · rw [if_neg (by assumption)] at hreq
        exact ⟨_, hreq, hend⟩
    · refine (settle_full_ends node v).mono (fun _ _ h => h.elim) ?_
      intro e x hq'
      obtain ⟨he, hx⟩ := hq'
      subst he
      rw [hq.moved.ledger, hm.ledger] at hv
      exact ⟨_, .full hg hfull hch hin hcnt, (((hm.quiet hq hl).trans hv hl).quiet hx hl)⟩
  · intro e u hq'
    obtain ⟨he, hout, hq⟩ := hq'
    subst he
    rw [hcurr] at hout
    refine ⟨_, ?_, hm.quiet hq hl⟩
    exact .early (.track hout) hg.pool

theorem GrantedFor.counted {b : Book} {lst : List FileClass} {type : MemType} {len : Nat}
    {node : Option (Nat × Nat)} (h : GrantedFor A (withLedger b (counted b.toLedger)) lst type len node) :
    GrantedFor A b lst type len node := by
  cases h with
  | anon asked => exact .anon asked
  | file asked pool fit => exact .file asked pool fit

theorem Moved.denied {s t : St γ} {l : Ledger} (h : Moved s t l) :
    Moved s { t with refused := t.refused + 1 } (denied l) := by
  refine ⟨?_, h.memory, h.calls, h.reads⟩
  change withLedger t.toBook (Proofs.denied t.toLedger) = _
  rw [h.book]
  rfl

/-- `random_allocator_one` once its type and the size of a class were chosen. -/
theorem asked_ends {s t : St γ} {type : MemType} {anonSlice : Int} {c : FileClass} (cnt : Nat)
    (hch : Chosen s.typeCnt anonSlice type) (hcnt : s.typeCnt + 1 < 2 ^ 31)
    (hfirst : FirstFor A s.fileLst) (ha : A type c) (hm : Moved s t (counted s.toLedger)) :
    Ends (do
        let (addr, allocLen, node) ← alloc w type c.size
        if addr = 0 then
          modify fun s => { s with refused := s.refused + 1 }
          return (.typeMax, cnt)
        else
          let allocSuc ← addNewAlloc addr allocLen type
          let pageCnt := allocLen / w.pageSize
          countPages type pageCnt
          settle node allocSuc
          let s ← get
          if s.allocPrecision then
            return (type, if cnt < pageCnt then 0 else cnt - pageCnt)
          else return (type, wrapSub cnt 1)) t
      (fun r u => ∃ l, RequestFor A w.pageSize s.toBook anonSlice cnt r.1 r.2 l ∧ Moved s u l)
      (fun e u => ∃ l, AbortedFor A w s.toBook anonSlice e l ∧ Moved s u l) := by
  have hlst : t.fileLst = s.fileLst := (congrArg Ledger.fileLst hm.ledger).trans rfl
  rw [ends_bind]
  refine (alloc_ends (hlst ▸ hfirst) hch.cases ha).mono ?_ ?_
  · intro r u hq
    obtain ⟨addr, len, node⟩ := r
    obtain ⟨l, hal, hu⟩ := hq
    rw [hm.book] at hal
    cases hal with
    | refused full pool =>
      have hend := hm.trans hu rfl
      dsimp only
      rw [if_pos rfl]
      simp only [ends_bind, ends_modify, ends_pure]
      exact ⟨_, .refused hch ha full pool hcnt, hend.denied⟩
    | mapped hne granted =>
      dsimp only
      rw [if_neg hne]
      exact track_ends hch hcnt granted.counted hne (hm.trans hu rfl)
  · intro e u hq
    obtain ⟨he, lst, hp, hu⟩ := hq
    rw [hm.ledger] at hu
    refine ⟨_, ?_, hm.trans hu rfl⟩
    exact .early (.forced he) (hlst ▸ hp)

theorem Asked.firstFor {b : Book} (hr : Ready b) : FirstFor (fun _ => Asked b) b.fileLst := by
  obtain ⟨d, hd, had⟩ := Asked.first hr
  exact ⟨d, hd, fun _ _ _ => had⟩

/-- `random_allocator_one` does what `Request` and `Aborted` say. -/
theorem randomAllocatorOne_ends {s : St γ} (hr : Ready s.toBook) (anonSlice : Int) (cnt : Nat) :
    Ends (randomAllocatorOne w anonSlice cnt) s
      (fun r t => ∃ l, Request w.pageSize s.toBook anonSlice cnt r.1 r.2 l ∧ Moved s t l)
      (fun e t => ∃ l, Aborted w s.toBook anonSlice e l ∧ Moved s t l) := by
  unfold randomAllocatorOne
  rw [ends_bind]
  refine (randomizeAllocType_ends anonSlice s).mono ?_ ?_
  · intro type t hq'
    obtain ⟨hch, ht, hroom⟩ := hq'
    have hrt : Ready t.toBook := by
      rw [ht.book]
      exact ⟨hr.speed, hr.length⟩
    rw [ends_bind]
    refine (randomizeAllocLen_ends hrt).mono ?_ fun _ _ h => h.elim
    intro len u hq'
    obtain ⟨hq, c, hc, hlen⟩ := hq'
    subst hlen
    rw [ht.book] at hc
    exact asked_ends cnt hch hroom (Asked.firstFor hr) hc (ht.quiet hq rfl)
  · intro e t hq'
    obtain ⟨he, hq⟩ := hq'
    refine ⟨_, ?_, hq.moved⟩
    exact .early he (PoolSearched.refl _)

end Gobbler.Proofs
