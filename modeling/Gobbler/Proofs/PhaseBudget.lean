import Gobbler.Proofs.Limit
import Gobbler.Proofs.Plenty
import Gobbler.Proofs.Script
import Gobbler.Proofs.Transition
import Gobbler.Proofs.UpperLimit

namespace Gobbler.Proofs
open Effect

variable {γ : Type} {w : World γ} {table : FileTable} {M ps q : Nat} {b : Book}

/-- The pages of the records of a list. -/
def pagesIn (lst : List AllocRec) : Nat := (lst.map fun r => r.len / pageSize).sum

theorem pagesIn_append (lst : List AllocRec) (r : AllocRec) :
    pagesIn (lst ++ [r]) = pagesIn lst + r.len / pageSize := by
  simp [pagesIn]

/-- On machines with pages of `ps` bytes, whatever they answer and whatever the
state of the pool, a transition with a budget of `M` pages adds at most as many
pages to its phase, also when it does not come back. -/
def BudgetKept (ps : Nat) (table : FileTable) (M : Nat) : Prop :=
  ∀ (γ : Type) (w : World γ) (s : St γ) (passes : Nat), w.pageSize = ps →
    PhaseBudget table M s.toBook →
    let phase := (s.curr + 1).toNat
    Ends (transRandAlloc w passes) s
      (fun _ t => pagesIn (t.allocTrack phase) ≤ pagesIn (s.allocTrack phase) + M)
      fun _ t => pagesIn (t.allocTrack phase) ≤ pagesIn (s.allocTrack phase) + M

/-- Every mapping that a request may be granted has `q` pages. -/
def EvenGrants (q : Nat) (b : Book) : Prop :=
  ∀ lst type len node, Granted b lst type len node → len = q * pageSize

theorem AbortedFor.current {h : Halt} {anonSlice : Int} {led : Ledger}
    (ha : Aborted w b anonSlice h led) : current (withLedger b led) = current b := by
  cases ha <;> rfl

theorem PhaseBudget.request {anonSlice : Int} {cnt cnt' : Nat} {typ : MemType} {led : Ledger}
    (h : PhaseBudget table M b) (hreq : Request ps b anonSlice cnt typ cnt' led) :
    PhaseBudget table M (withLedger b led) := by
  refine h.move ?_ (.ledger _ _)
  cases hreq with
  | refused _ _ _ pool => exact pool.sizes
  | @served lst r node _ granted =>
    have hs := granted.pool.sizes
    cases node with
    | none => exact hs
    | some node => exact (markNode_sizes _ _ _ _).trans hs

/-- What holds of the count and the list of the phase, and is kept by every
record, holds at both ends of a call. -/
theorem transRandAlloc_list {s : St γ} (hb : PhaseBudget table M s.toBook)
    {P : Nat → List AllocRec → Prop} (passes : Nat)
    (hstart : P M (s.allocTrack (s.curr + 1).toNat))
    (hcnt : ∀ cnt cnt' lst, cnt' ≤ cnt → P cnt lst → P cnt' lst)
    (hadd : ∀ b lst r node cnt, PhaseBudget table M b → Granted b lst r.type r.len node → cnt ≠ 0 →
      (current b).length < maxAllocPerSe → P cnt (current b) →
      P (cnt - r.len / w.pageSize) (current b ++ [r])) :
    Ends (transRandAlloc w passes) s
      (fun _ t => ∃ cnt, P cnt (t.allocTrack (s.curr + 1).toNat))
      fun _ t => ∃ cnt, P cnt (t.allocTrack (s.curr + 1).toNat) := by
  have hlist : ∀ {b : Book}, b.curr = s.curr + 1 →
      b.allocTrack (s.curr + 1).toNat = current b := by
    intro b hb
    rw [current, hb]
  apply (transRandAlloc_requests (I := fun l b => PhaseBudget table M b ∧ b.curr = s.curr + 1 ∧
    P l.cnt (current b)) hb.precise passes (fun _ _ hi => hi.1.ready) ?_ ?_).mono
  · intro _ t hq
    obtain ⟨l, b, ⟨_, hcurr, hp⟩, _, ht⟩ := hq
    refine ⟨l.cnt, ?_⟩
    rw [ht, hlist (b := left b) hcurr]
    exact hp
  · rintro _ t (ht | ⟨l, b, ⟨_, hcurr, hp⟩, ht | ⟨_, led, aborted, ht⟩⟩)
    · refine ⟨M, ?_⟩
      rw [ht]
      exact hstart
    · refine ⟨l.cnt, ?_⟩
      rw [ht, hlist hcurr]
      exact hp
    · refine ⟨l.cnt, ?_⟩
      have hcurr' : (withLedger b led).curr = s.curr + 1 := aborted.curr.trans hcurr
      rw [ht, hlist hcurr', aborted.current]
      exact hp
  · intro l hl _
    rw [hb.pages] at hl
    exact ⟨hb.move rfl ⟨rfl, rfl, rfl, rfl⟩, rfl, hl ▸ hstart⟩
  · intro l b typ cnt led hi more hreq
    obtain ⟨hpb, hcurr, hp⟩ := hi
    refine ⟨hpb.request hreq, hreq.curr.trans hcurr, ?_⟩
    rcases hreq.counts more with ⟨hsame, hle⟩ | ⟨lst, r, node, granted, room, hcur, hprec, _⟩
    · rw [hsame]
      exact hcnt _ _ _ (Nat.le_trans hle (Nat.sub_le _ _)) hp
    · rw [hcur, hprec hpb.precise]
      exact hadd _ _ _ _ _ hpb granted more room hp

theorem budgetKept_zero : BudgetKept ps table 0 := by
  intro γ w s passes _ hb phase
  refine (transRandAlloc_list (P := fun cnt lst => cnt = 0 ∧ lst = s.allocTrack phase) hb passes
    ⟨rfl, rfl⟩ ?_ ?_).mono ?_ ?_
  · rintro cnt cnt' lst hle ⟨rfl, hlst⟩
    exact ⟨Nat.le_zero.mp hle, hlst⟩
  · intro b lst r node cnt _ _ more _ hq
    obtain ⟨hz, _⟩ := hq
    exact absurd hz more
  · intro _ t hq
    obtain ⟨_, _, hlst⟩ := hq
    exact hlst ▸ Nat.le_refl _
  · intro _ t hq
    obtain ⟨_, _, hlst⟩ := hq
    exact hlst ▸ Nat.le_refl _

/-- A full list of the largest class is within the budget. -/
theorem budgetKept_full (h : maxAllocPerSe * largestPages table ≤ M) : BudgetKept ps table M := by
  intro γ w s passes _ hb phase
  have hend : ∀ lst : List AllocRec, (∃ n, lst.length = (s.allocTrack phase).length + n ∧
      (n = 0 ∨ lst.length ≤ maxAllocPerSe) ∧
      pagesIn lst ≤ pagesIn (s.allocTrack phase) + n * largestPages table) →
      pagesIn lst ≤ pagesIn (s.allocTrack phase) + M := by
    intro lst hq
    obtain ⟨n, hn, hshort, hle⟩ := hq
    have hmost : n ≤ maxAllocPerSe := by omega
    have hmul := Nat.mul_le_mul_right (largestPages table) hmost
    omega
  refine (transRandAlloc_list (P := fun _ lst => ∃ n, lst.length = (s.allocTrack phase).length + n ∧
    (n = 0 ∨ lst.length ≤ maxAllocPerSe) ∧
    pagesIn lst ≤ pagesIn (s.allocTrack phase) + n * largestPages table) hb passes
    ⟨0, rfl, .inl rfl, Nat.le_add_right _ _⟩ (fun _ _ _ _ h => h) ?_).mono ?_ ?_
  · intro b lst r node cnt hb' granted _ room hq
    obtain ⟨n, hn, _, hle⟩ := hq
    have hpages := granted.le_largest hb'.sizes
    refine ⟨n + 1, ?_, .inr ?_, ?_⟩
    · rw [List.length_append, List.length_singleton, hn, Nat.add_assoc]
    · rw [List.length_append, List.length_singleton]
      exact room
    · rw [pagesIn_append, Nat.succ_mul]
      omega
  · intro _ t hq
    obtain ⟨_, hlst⟩ := hq
    exact hend _ hlst
  · intro _ t hq
    obtain ⟨_, hlst⟩ := hq
    exact hend _ hlst

/-- Records of `q` pages meet a budget that `q` divides. -/
theorem budgetKept_even (hdvd : q ∣ M)
    (heven : ∀ b, PhaseBudget table M b → EvenGrants q b) : BudgetKept pageSize table M := by
  intro γ w s passes hps hb phase
  have hend : ∀ lst : List AllocRec, (∃ cnt k, pagesIn lst = pagesIn (s.allocTrack phase) + q * k ∧
      q * k ≤ M ∧ cnt ≤ M - q * k) → pagesIn lst ≤ pagesIn (s.allocTrack phase) + M := by
    intro lst hq
    obtain ⟨_, k, hk, hle, _⟩ := hq
    omega
  refine (transRandAlloc_list (P := fun cnt lst => ∃ k, pagesIn lst = pagesIn (s.allocTrack phase) +
    q * k ∧ q * k ≤ M ∧ cnt ≤ M - q * k) hb passes ⟨0, rfl, Nat.zero_le _, Nat.le_refl _⟩ ?_ ?_).mono
    (fun _ t h => hend _ h) fun _ t h => hend _ h
  · intro cnt cnt' lst hle hq
    obtain ⟨k, hk, hkM, hcnt⟩ := hq
    exact ⟨k, hk, hkM, Nat.le_trans hle hcnt⟩
  · intro b lst r node cnt hb' granted more _ hq
    obtain ⟨k, hk, hkM, hcnt⟩ := hq
    have hlen : r.len / pageSize = q := by
      rw [heven b hb' _ _ _ _ granted, Nat.mul_div_cancel _ (by decide)]
    have hnext : q * (k + 1) ≤ M := by
      obtain ⟨m, rfl⟩ := hdvd
      have hlt : k < m := Nat.lt_of_mul_lt_mul_left (a := q) (by omega)
      exact Nat.mul_le_mul_left q hlt
    refine ⟨k + 1, ?_, hnext, ?_⟩
    · rw [pagesIn_append, hlen, hk, Nat.mul_succ, Nat.add_assoc]
    · rw [hps, hlen]
      rw [Nat.mul_succ] at hnext ⊢
      omega

theorem clip_pages (hM : 0 < M) (p : Nat) :
    clip (M * pageSize) (p * pageSize) = min M p * pageSize := by
  have hne : M * pageSize ≠ 0 := Nat.mul_ne_zero (Nat.ne_of_gt hM) (by decide)
  unfold clip
  rcases Nat.lt_or_ge M p with hlt | hge
  · rw [if_pos ⟨hne, Nat.mul_lt_mul_of_pos_right hlt (by decide)⟩, Nat.min_eq_left (Nat.le_of_lt hlt)]
  · rw [if_neg fun h => Nat.not_lt_of_le (Nat.mul_le_mul_right pageSize hge) h.2,
      Nat.min_eq_right hge]

/-- The pages of a mapping for a class: its own, or the budget. -/
theorem PhaseBudget.granted_pages (hb : PhaseBudget table M b) (ht : PageTable table) (hM : 0 < M)
    {lst : List FileClass} {type : MemType} {len : Nat} {node : Option (Nat × Nat)}
    (h : Granted b lst type len node) :
    ∃ e ∈ table.classes, len = min M (e.1 / pageSize) * pageSize := by
  obtain ⟨c, hc, rfl⟩ := h.class
  obtain ⟨e, he, hsize⟩ := hb.class hc
  refine ⟨e, he, ?_⟩
  have hpages : e.1 / pageSize * pageSize = c.size := hsize ▸ Nat.div_mul_cancel (ht e he).2
  rw [hb.byte, ← clip_pages hM, hpages]

/-- The number of pages that the budget leaves every class, if it is the same for all. -/
def SamePages (table : FileTable) (M q : Nat) : Prop :=
  ∀ e ∈ table.classes, min M (e.1 / pageSize) = q

theorem SamePages.even (h : SamePages table M q) (ht : PageTable table) (hM : 0 < M)
    (hb : PhaseBudget table M b) : EvenGrants q b := by
  intro lst type len node hg
  obtain ⟨e, he, rfl⟩ := hb.granted_pages ht hM hg
  rw [h e he]

theorem PhaseBudget.first (hb : PhaseBudget table M b) :
    ∃ c, b.fileLst[0]? = some c ∧ c.size = firstSize table := by
  have hget : (b.fileLst.map FileClass.size)[0]? = some (firstSize table) := by
    rw [hb.sizes, List.getElem?_map, List.getElem?_eq_getElem table.nonempty]
    rfl
  simpa [List.getElem?_map] using hget

/-- The first class is as large as a size can be. -/
def FirstIsAll (table : FileTable) : Prop := firstSize table = 2 ^ 64 - pageSize

/-- A first class that no limit is above is the only one asked for, and no
other has as many pages. -/
theorem FirstIsAll.even (h : FirstIsAll table) (hM : 0 < M)
    (hfit : M * pageSize < 2 ^ 64) (hb : PhaseBudget table M b) : EvenGrants M b := by
  have hfull : ∀ c ∈ b.fileLst, firstSize table ≤ c.size →
      clip b.maxAllocPerPhaseByte c.size = M * pageSize := by
    intro c hc hle
    rw [hb.byte]
    have hbyte : M * pageSize ≤ 2 ^ 64 - pageSize := by
      simp only [pageSize] at hfit ⊢
      omega
    unfold clip
    split
    · rfl
    · rename_i hnot
      have hne : M * pageSize ≠ 0 := Nat.mul_ne_zero (Nat.ne_of_gt hM) (by decide)
      rw [FirstIsAll] at h
      omega
  have hasked : ∀ c, Asked b c → c.size = firstSize table := by
    intro c hq
    obtain ⟨i, hi, hc⟩ := hq
    obtain ⟨d, hd, hsize⟩ := hb.first
    have hlimit : wrap (b.maxLimit * pageSize) ≤ d.size := by
      rw [hsize, h]
      simp only [wrap, pageSize]
      omega
    obtain ⟨hpos, hget⟩ := List.getElem?_eq_some_iff.mp hd
    rw [lastAsked_eq hpos, hget, if_pos hlimit, Nat.le_zero] at hi
    subst hi
    rw [← Option.some.inj (hd.symm.trans hc), hsize]
  intro lst type len node hg
  cases hg with
  | anon asked => exact hfull _ asked.mem (Nat.le_of_eq (hasked _ asked).symm)
  | file asked pool fit =>
    exact hfull _ (List.mem_of_getElem? fit.found) (hasked _ asked ▸ fit.fits)

theorem largest_mem {ns : List Nat} (h : ns ≠ []) : largest ns ∈ ns := by
  induction ns with
  | nil => exact absurd rfl h
  | cons n ns ih =>
    by_cases hn : ns = []
    · subst hn
      simp [largest]
    · have hmem := ih hn
      rcases Nat.le_total n (largest ns) with hle | hle
      · rw [show largest (n :: ns) = largest ns from Nat.max_eq_right hle]
        exact List.mem_cons_of_mem n hmem
      · rw [show largest (n :: ns) = n from Nat.max_eq_left hle]
        exact List.mem_cons_self

/-- A class of the largest size, the first one if that is as large as a size can be. -/
theorem exists_largest (ht : PageTable table) : ∃ (i : Nat) (e : Nat × List String),
    table.classes[i]? = some e ∧ e.1 = largestPages table * pageSize ∧
      (FirstIsAll table → i = 0) := by
  have hpos := table.nonempty
  have hmem : largestPages table ∈ table.classes.map fun c => c.1 / pageSize :=
    largest_mem (by simpa using List.ne_nil_of_length_pos hpos)
  obtain ⟨e, he, hmost⟩ := List.mem_map.mp hmem
  have hsize : e.1 = largestPages table * pageSize := by
    rw [← hmost, Nat.div_mul_cancel (ht e he).2]
  by_cases hall : FirstIsAll table
  · have hfirst : table.classes[0].1 = 2 ^ 64 - pageSize := hall
    have hle : table.classes[0].1 / pageSize ≤ largestPages table :=
      le_largest (List.mem_map_of_mem (List.getElem_mem hpos))
    have hlt := table.size_lt e he
    refine ⟨0, table.classes[0], List.getElem?_eq_getElem hpos, ?_, fun _ => rfl⟩
    rw [hfirst] at hle ⊢
    simp only [pageSize] at hle hsize ⊢
    omega
  · obtain ⟨i, hi⟩ := List.mem_iff_getElem?.mp he
    exact ⟨i, e, hi, hsize, fun h => absurd h hall⟩

section strained

variable {stage : Nat → Fin 3} {script : Fin 3 → Nat}

/-- The books of a transition in which every class may be asked for, and every
file request finds a node. -/
structure Strained (table : FileTable) (M : Nat) (b : Book) : Prop where
  budget : PhaseBudget table M b
  limit : b.maxLimit = 2 ^ 52 - 1
  speed : b.speed + 1 = b.fileLst.length
  curr : b.curr = 0
  plenty : Plenty (largestPages table * pageSize) b
  counter : b.typeCnt = 4 + (current b).length

theorem GrantedFor.weaken {A A' : MemType → FileClass → Prop} {lst : List FileClass} {type : MemType}
    {len : Nat} {node : Option (Nat × Nat)} (h : GrantedFor A b lst type len node)
    (hA : ∀ type c, A type c → A' type c) : GrantedFor A' b lst type len node := by
  cases h with
  | anon asked => exact .anon (hA _ _ asked)
  | file asked pool fit => exact .file (hA _ _ asked) pool fit

theorem RequestFor.weaken {A A' : MemType → FileClass → Prop} {anonSlice : Int} {cnt cnt' : Nat}
    {typ : MemType} {led : Ledger} (h : RequestFor A ps b anonSlice cnt typ cnt' led)
    (hA : ∀ type c, A type c → A' type c) : RequestFor A' ps b anonSlice cnt typ cnt' led := by
  cases h with
  | refused chosen asked full pool counter => exact .refused chosen (hA _ _ asked) full pool counter
  | served chosen granted addr track room counter =>
    exact .served chosen (granted.weaken hA) addr track room counter

theorem Strained.class {b : Book} (h : Strained table M b) {i : Nat} {e : Nat × List String}
    (he : table.classes[i]? = some e) : ∃ c, b.fileLst[i]? = some c ∧ c.size = e.1 := by
  have hget : (b.fileLst.map FileClass.size)[i]? = some e.1 := by
    rw [h.budget.sizes, List.getElem?_map, he]
    rfl
  simpa [List.getElem?_map] using hget

theorem Strained.limit_eq {b : Book} (h : Strained table M b) :
    wrap (b.maxLimit * pageSize) = 2 ^ 64 - pageSize := by
  rw [h.limit]
  simp only [wrap, pageSize]
  omega

theorem size_le {e : Nat × List String} (ht : PageTable table) (he : e ∈ table.classes) :
    e.1 ≤ 2 ^ 64 - pageSize := by
  have hlt := table.size_lt e he
  have hdvd := (ht e he).2
  simp only [pageSize] at hdvd ⊢
  omega

/-- Every class may be asked for; above the first, one draw picks it. -/
theorem Strained.picks {b : Book} (h : Strained table M b) (ht : PageTable table) {n i : Nat}
    {e : Nat × List String} (he : table.classes[i]? = some e) (hall : FirstIsAll table → i = 0)
    (hnow : script (stage n) = i) : ∃ c, Picks stage script b n i c ∧ c.size = e.1 := by
  obtain ⟨c, hc, hsize⟩ := h.class he
  obtain ⟨d, hd, hdsize⟩ := h.budget.first
  obtain ⟨hpos, hget⟩ := List.getElem?_eq_some_iff.mp hd
  have hi := (List.getElem?_eq_some_iff.mp hc).1
  have hspeed := h.speed
  have hle := size_le ht (List.mem_of_getElem? he)
  refine ⟨c, ⟨?_, hc, hnow, fun hbig => ?_⟩, hsize⟩
  · rw [lastAsked_eq hpos, hget, h.limit_eq, hdsize]
    split
    · rename_i hfirst
      have hmax : firstSize table ≤ 2 ^ 64 - pageSize := size_le ht (List.get_mem _ _)
      exact Nat.le_of_eq (hall (Nat.le_antisymm hmax hfirst))
    · omega
  · rw [h.limit_eq, hsize] at hbig
    exact absurd hbig (Nat.not_lt_of_le hle)

theorem Strained.sizes_le {b : Book} (h : Strained table M b) {c : FileClass}
    (hc : c ∈ b.fileLst) (ht : PageTable table) : c.size ≤ largestPages table * pageSize := by
  obtain ⟨e, he, hsize⟩ := h.budget.class hc
  rw [← hsize, ← Nat.div_mul_cancel (ht e he).2]
  exact Nat.mul_le_mul_right pageSize (le_largest (List.mem_map_of_mem he))

/-- The mapping of a request for class `c` has the pages of that class, when it
is anonymous or the class is the largest. -/
theorem Strained.granted {b : Book} (h : Strained table M b) (ht : PageTable table) (hM : 0 < M)
    {c : FileClass} {pages : Nat} (hsize : c.size = pages * pageSize) {type : MemType}
    (htype : type = .anon ∨ pages = largestPages table) {lst : List FileClass} {type' : MemType}
    {len : Nat} {node : Option (Nat × Nat)}
    (hg : GrantedFor (Pinned type c) b lst type' len node) : len = min M pages * pageSize := by
  cases hg with
  | anon asked =>
    obtain ⟨_, rfl⟩ := asked
    rw [h.budget.byte, hsize, clip_pages hM]
  | @file _ _ _ c' d asked _ fit =>
    obtain ⟨rfl, rfl⟩ := asked
    have hlargest : pages = largestPages table := htype.resolve_left nofun
    have hge := fit.fits
    have hle := h.sizes_le (List.mem_of_getElem? fit.found) ht
    rw [hsize, hlargest] at hge
    rw [h.budget.byte, Nat.le_antisymm hle hge, hlargest, clip_pages hM]

theorem Strained.type_counts {b : Book} (h : Strained table M b) : b.typeCnt + 1 < 2 ^ 31 := by
  have hshort : (current b).length ≤ 500 := h.plenty.short
  rw [h.counter]
  omega

/-- As long as the list has room, nothing breaks a request off. -/
theorem Strained.not_aborted {b : Book} (h : Strained table M b)
    (hroom : (current b).length < maxAllocPerSe) {A : MemType → FileClass → Prop} {anonSlice : Int}
    {x : Halt} {led : Ledger} : ¬AbortedFor A (scriptWorld ps stage script) b anonSlice x led := by
  intro aborted
  cases aborted with
  | early why =>
    cases why with
    | forced hf => exact scriptWorld_willing.not_forced hf
    | overflow hover => exact absurd h.type_counts (Nat.not_lt_of_le hover)
    | track hout =>
      rw [h.curr] at hout
      exact hout ⟨Int.le_refl _, by decide⟩
  | full _ room => exact absurd hroom (Nat.not_lt_of_le room)

/-- In strained books a request in a scripted world adds the record of the class
that the script picks. -/
theorem Strained.served {v : St (Option (Fin 3))} (h : Strained table M v.toBook)
    (ht : PageTable table) (hM : 0 < M) {anonSlice : Int} (hneg : anonSlice < 0) (cnt : Nat)
    {i pages : Nat} {e : Nat × List String} (he : table.classes[i]? = some e)
    (hpages : e.1 = pages * pageSize) (hall : FirstIsAll table → i = 0)
    (hnow : script (stage v.cpuReads) = i) (hroom : (current v.toBook).length < maxAllocPerSe)
    (htype : countedType v.typeCnt = .anon ∨ pages = largestPages table) :
    Ends (randomAllocatorOne (scriptWorld ps stage script) anonSlice cnt) v
      (fun r x => r.1 ≠ .typeMax ∧ r.2 = cnt - min M pages * pageSize / ps ∧
        Strained table M x.toBook ∧
        (current x.toBook).length = (current v.toBook).length + 1 ∧
        pagesIn (current x.toBook) = pagesIn (current v.toBook) + min M pages ∧
        v.cpuReads ≤ x.cpuReads ∧ (¬FirstIsAll table → v.cpuReads < x.cpuReads))
      (fun _ _ => False) := by
  obtain ⟨c, hpick, hsize⟩ := h.picks ht he hall hnow
  have hreads : typeReads anonSlice = 0 := if_neg (by omega)
  have hcnt := h.type_counts
  have hch : Chosen v.typeCnt anonSlice (countedType v.typeCnt) := by
    rw [Chosen, if_pos hneg]
  have hz : c.size ≠ 0 := by
    rw [hsize]
    exact Nat.ne_of_gt (ht e (List.mem_of_getElem? he)).1
  refine (randomAllocatorOne_script cnt h.budget.ready hz hch hcnt (fun hpos => by omega)
    (by rw [hreads]; exact hpick)).mono ?_ ?_
  · intro r x hq
    obtain ⟨typ, cnt'⟩ := r
    obtain ⟨led, hreq, hx, hdrawn⟩ := hq
    have hreq' : Request ps v.toBook anonSlice cnt typ cnt' led := by
      refine hreq.weaken ?_
      rintro _ _ ⟨_, rfl⟩
      exact ⟨i, hpick.asked, hpick.found⟩
    have hbook := hx.book
    have hplenty := hbook ▸ h.plenty.request hreq'
    have hbudget := hbook ▸ h.budget.request hreq'
    have hcurr : x.curr = 0 := (congrArg Ledger.curr hx.ledger).trans (hreq'.curr.trans h.curr)
    have hlength : x.fileLst.length = v.fileLst.length := by
      simpa only [List.length_map] using congrArg List.length (hbudget.sizes.trans h.budget.sizes.symm)
    cases hreq with
    | refused _ asked full =>
      obtain ⟨_, rfl⟩ := asked
      exact absurd full (h.plenty.not_exhausted (h.sizes_le (List.mem_of_getElem? hpick.found) ht))
    | @served lst r node chosen granted =>
      have hlen := h.granted ht hM (hsize.trans hpages) htype granted
      have hlist : current x.toBook = current v.toBook ++ [r] := by rw [hbook, current_taken]
      have hcount : x.typeCnt = v.typeCnt + 1 :=
        (congrArg Ledger.typeCnt hx.ledger).trans (by cases node <;> rfl)
      have hmore : (current x.toBook).length = (current v.toBook).length + 1 := by
        rw [hlist, List.length_append, List.length_singleton]
      refine ⟨chosen.ne_typeMax, ?_, ⟨hbudget, ?_, ?_, hcurr, hplenty, ?_⟩, hmore, ?_, hx.reads, ?_⟩
      · change countdown v.allocPrecision cnt (r.len / ps) = _
        rw [h.budget.precise, countdown_precise, hlen]
      · exact (congrArg (fun b : Book => b.maxLimit) hbook).trans h.limit
      · rw [hlength, ← h.speed]
        exact (congrArg (fun b : Book => b.speed + 1) hbook).trans rfl
      · rw [hcount, hmore, h.counter, Nat.add_assoc]
      · rw [hlist, pagesIn_append, hlen, Nat.mul_div_cancel _ (by decide)]
      · intro hnot
        refine hdrawn fun d hd => ?_
        obtain ⟨d', hd', hfirst⟩ := h.budget.first
        rw [← Option.some.inj (hd'.symm.trans hd), hfirst, h.limit_eq]
        have hmax : firstSize table ≤ 2 ^ 64 - pageSize := size_le ht (List.get_mem _ _)
        exact Nat.lt_of_le_of_ne hmax hnot
  · intro _ _ hq
    obtain ⟨_, aborted, _⟩ := hq
    exact h.not_aborted hroom aborted

/-- A pass that touches nothing adds the record and takes its pages off the count. -/
theorem Strained.pass {v : St (Option (Fin 3))} (h : Strained table M v.toBook)
    (ht : PageTable table) (hM : 0 < M) {l : TransLocals} (hneg : l.anonSlice < 0) (hi : l.i = 0)
    {i pages : Nat} {e : Nat × List String} (he : table.classes[i]? = some e)
    (hpages : e.1 = pages * pageSize) (hall : FirstIsAll table → i = 0)
    (hnow : script (stage v.cpuReads) = i) (hroom : (current v.toBook).length < maxAllocPerSe)
    (htype : countedType v.typeCnt = .anon ∨ pages = largestPages table) :
    Ends (transRandAllocPass (scriptWorld ps stage script) l) v
      (fun l' x => l'.anonSlice < 0 ∧ l'.i = 0 ∧ l'.cnt = l.cnt - min M pages * pageSize / ps ∧
        Strained table M x.toBook ∧
        (current x.toBook).length = (current v.toBook).length + 1 ∧
        pagesIn (current x.toBook) = pagesIn (current v.toBook) + min M pages ∧
        v.cpuReads ≤ x.cpuReads ∧ (¬FirstIsAll table → v.cpuReads < x.cpuReads))
      (fun _ _ => False) := by
  unfold transRandAllocPass
  apply (h.served ht hM hneg l.cnt he hpages hall hnow hroom htype).bind
  intro r x hq
  obtain ⟨typ, cnt⟩ := r
  obtain ⟨hne, hcnt, hrest⟩ := hq
  dsimp only at hne hcnt ⊢
  rw [if_neg hne, hi]
  refine ⟨?_, rfl, hcnt, hrest⟩
  change (if typ = .anon then l.anonSlice - 1 else l.anonSlice) < 0
  split <;> omega

/-- Passes that all ask for the largest class pass the budget as soon as `n` of
them do, when the count lasts until then. -/
theorem Strained.overshoot (ht : PageTable table) (hM : 0 < M) {i : Nat} {e : Nat × List String}
    (he : table.classes[i]? = some e) (hpages : e.1 = largestPages table * pageSize)
    (hall : FirstIsAll table → i = 0) {out : Halt} (n : Nat) {v : St (Option (Fin 3))}
    {l : TransLocals} (h : Strained table M v.toBook) (hneg : l.anonSlice < 0) (hi : l.i = 0)
    (hlater : ∀ k, v.cpuReads ≤ k → script (stage k) = i)
    (hroom : (current v.toBook).length + n ≤ maxAllocPerSe)
    (hlast : ∀ j, pagesIn (current v.toBook) + j * min M (largestPages table) ≤ M →
      j * (min M (largestPages table) * pageSize / ps) < l.cnt)
    (hprev : ∀ j, j < n → pagesIn (current v.toBook) + j * min M (largestPages table) ≤ M)
    (hn : M < pagesIn (current v.toBook) + n * min M (largestPages table)) :
    Ends (repeatWhile out (fun l => l.cnt ≠ 0) (transRandAllocPass (scriptWorld ps stage script))
      n l) v (fun _ x => Strained table M x.toBook ∧ M < pagesIn (current x.toBook))
      (fun _ x => Strained table M x.toBook ∧ M < pagesIn (current x.toBook)) := by
  induction n generalizing v l with
  | zero =>
    have hover : M < pagesIn (current v.toBook) := by simpa using hn
    unfold repeatWhile
    split <;> exact ⟨h, hover⟩
  | succ n ih =>
    have hmore : l.cnt ≠ 0 := by
      have hpos := hlast 0 (hprev 0 (Nat.succ_pos n))
      omega
    unfold repeatWhile
    rw [if_pos (by simpa using hmore), ends_bind]
    refine (h.pass ht hM hneg hi he hpages hall (hlater _ (Nat.le_refl _)) (by omega)
      (.inr rfl)).mono ?_ fun _ _ h => h.elim
    intro l' x hq
    obtain ⟨hneg', hi', hcnt, hx, hlen, hadd, hreads, _⟩ := hq
    have hsum : ∀ j, pagesIn (current x.toBook) + j * min M (largestPages table) =
        pagesIn (current v.toBook) + (j + 1) * min M (largestPages table) := by
      intro j
      rw [hadd, Nat.succ_mul]
      omega
    refine ih hx hneg' hi' (fun k hk => hlater k (Nat.le_trans hreads hk)) (by omega) ?_ ?_ ?_
    · intro j hj
      have hnext := hlast (j + 1) (hsum j ▸ hj)
      rw [Nat.succ_mul] at hnext
      rw [hcnt]
      omega
    · intro j hj
      rw [hsum]
      exact hprev (j + 1) (Nat.succ_lt_succ hj)
    · rwa [hsum]

/-- A transition that draws zero touches nothing, and has read the clock once. -/
theorem transRandAllocEnter_script {s : St (Option (Fin 3))} (hp : s.allocPrecision = true)
    (hdraw : script (stage s.cpuReads) = 0) :
    Ends (transRandAllocEnter (scriptWorld ps stage script)) s
      (fun l t => l.i = 0 ∧ t.cpuReads = s.cpuReads + 1) (fun _ _ => True) := by
  have hzero : ((min (script (stage s.cpuReads)) randMax : Nat) : Int).tdiv
      ((randMax : Int).tdiv (3 + 1)) = 0 := by
    rw [hdraw]
    rfl
  unfold transRandAllocEnter
  rw [ends_bind]
  refine ((randLim_script (by decide) (by decide) (by rw [hzero]; decide)).and
    (randLim_kept 3 s)).mono ?_ fun _ _ _ => trivial
  rintro v t ⟨⟨rfl, hreads⟩, hk, _⟩
  have hpt : t.allocPrecision = true :=
    (congrArg (fun b : Book => b.allocPrecision) hk.book).trans hp
  rw [ends_bind]
  refine (goToNxtPhase_ends t).mono ?_ fun _ _ _ => trivial
  rintro _ _ ⟨_, rfl⟩
  simp only [ends_bind, ends_get]
  unfold randomizeAllocCount
  simp only [ends_bind, ends_get, hpt, if_true, ends_pure, ends_modify]
  exact ⟨by rw [hzero]; rfl, hreads⟩

end strained

/-- The count of a budget of `M` pages lasts until records of `first` pages and
then of `rest` pages each have passed it, after `n` of these. -/
structure Overshoots (ps M first rest n : Nat) : Prop where
  lasts : ∀ j, first + j * rest ≤ M → j * (rest * pageSize / ps) < M - first * pageSize / ps
  before : ∀ j, j < n → first + j * rest ≤ M
  after : M < first + n * rest

theorem overshoots_same {rest : Nat} (hrest : 0 < rest) (hps : pageSize ≤ ps)
    (h : ps = pageSize → ¬rest ∣ M) : Overshoots ps M rest rest (M / rest) := by
  refine ⟨fun j hj => ?_, fun j hj => ?_, ?_⟩
  · rw [Nat.add_comm, ← Nat.succ_mul] at hj
    suffices hlt : (j + 1) * (rest * pageSize / ps) < M by
      rw [Nat.succ_mul] at hlt
      omega
    rcases Nat.eq_or_lt_of_le hps with rfl | hbig
    · rw [Nat.mul_div_cancel _ (by decide)]
      refine Nat.lt_of_le_of_ne hj fun heq => ?_
      exact h rfl ⟨j + 1, by rw [← heq, Nat.mul_comm]⟩
    · have hless : rest * pageSize / ps < rest := by
        rw [Nat.div_lt_iff_lt_mul (by omega)]
        exact Nat.mul_lt_mul_of_pos_left hbig hrest
      exact Nat.lt_of_lt_of_le (Nat.mul_lt_mul_of_pos_left hless (Nat.succ_pos j)) hj
  · rw [Nat.add_comm, ← Nat.succ_mul]
    exact (Nat.le_div_iff_mul_le hrest).mp hj
  · rw [Nat.add_comm, ← Nat.succ_mul]
    exact (Nat.div_lt_iff_lt_mul hrest).mp (Nat.lt_succ_self _)

theorem overshoots_less {first rest : Nat} (hfirst : 0 < first) (hless : first < rest)
    (hdvd : rest ∣ M) : Overshoots pageSize M first rest (M / rest) := by
  obtain ⟨n, rfl⟩ := hdvd
  have hdiv : rest * n / rest = n := Nat.mul_div_cancel_left n (by omega)
  refine ⟨fun j hj => ?_, fun j hj => ?_, ?_⟩
  · rw [Nat.mul_div_cancel _ (by decide), Nat.mul_div_cancel _ (by decide)]
    have hj' : rest * j < rest * n := by
      rw [Nat.mul_comm] at hj
      omega
    have hmul := Nat.mul_le_mul_left rest (Nat.lt_of_mul_lt_mul_left hj')
    rw [Nat.mul_succ] at hmul
    rw [Nat.mul_comm j rest]
    omega
  · rw [hdiv] at hj
    have hmul := Nat.mul_le_mul_left rest hj
    rw [Nat.mul_succ] at hmul
    rw [Nat.mul_comm]
    omega
  · rw [hdiv, Nat.mul_comm]
    omega

/-- The budgets that a table whose classes have any number of files never passes. -/
def BudgetFits (ps : Nat) (table : FileTable) (M : Nat) : Prop :=
  M = 0 ∨ maxAllocPerSe * largestPages table ≤ M ∨
    (ps = pageSize ∧ (FirstIsAll table ∨ ∃ q, q ∣ M ∧ SamePages table M q))

/-- A class for the first request, such that the requests for the largest class
that follow pass the budget. -/
theorem exists_overshoots (hps : pageSize ≤ ps) (ht : PageTable table)
    (hbad : ¬BudgetFits ps table M) {i : Nat} {e : Nat × List String}
    (he : table.classes[i]? = some e) (hpages : e.1 = largestPages table * pageSize)
    (hall : FirstIsAll table → i = 0) :
    ∃ (i' : Nat) (e' : Nat × List String) (pages : Nat), table.classes[i']? = some e' ∧
      e'.1 = pages * pageSize ∧ (FirstIsAll table → i' = 0) ∧ (i' = i ∨ ¬FirstIsAll table) ∧
      Overshoots ps M (min M pages) (min M (largestPages table)) (M / min M (largestPages table)) := by
  have hM : 0 < M := Nat.pos_of_ne_zero fun hz => hbad (.inl hz)
  have hpos : ∀ e ∈ table.classes, 0 < e.1 / pageSize := by
    intro e he
    exact Nat.div_pos (Nat.le_of_dvd (ht e he).1 (ht e he).2) (by decide)
  have hlargest : 0 < largestPages table :=
    Nat.lt_of_lt_of_le (hpos e (List.mem_of_getElem? he)) (le_largest
      (List.mem_map_of_mem (List.mem_of_getElem? he)))
  have hrest : 0 < min M (largestPages table) := by omega
  by_cases hsame : ps = pageSize ∧ min M (largestPages table) ∣ M
  · obtain ⟨rfl, hdvd⟩ := hsame
    have hnot : ¬FirstIsAll table := fun h => hbad (.inr (.inr ⟨rfl, .inl h⟩))
    have hdiff : ¬SamePages table M (min M (largestPages table)) :=
      fun h => hbad (.inr (.inr ⟨rfl, .inr ⟨_, hdvd, h⟩⟩))
    obtain ⟨e', he', hne⟩ : ∃ e' ∈ table.classes, min M (e'.1 / pageSize) ≠
        min M (largestPages table) := by
      by_contra hno
      exact hdiff fun e' he' => by_contra fun hne => hno ⟨e', he', hne⟩
    obtain ⟨i', hi'⟩ := List.mem_iff_getElem?.mp he'
    have hle : e'.1 / pageSize ≤ largestPages table := le_largest (List.mem_map_of_mem he')
    have hfirst := hpos e' he'
    refine ⟨i', e', _, hi', (Nat.div_mul_cancel (ht e' he').2).symm, fun h => absurd h hnot,
      .inr hnot, overshoots_less ?_ ?_ hdvd⟩
    · omega
    · omega
  · refine ⟨i, e, _, he, hpages, hall, .inl rfl, overshoots_same hrest hps ?_⟩
    exact fun h hdvd => hsame ⟨h, hdvd⟩

/-- A start at which the first request is anonymous, every class may be asked
for, and each has more nodes than a list has room. -/
def strainedStart (table : FileTable) (M : Nat) : St (Option (Fin 3)) :=
  { initial table (fun _ => 0) none with
    fileLst := table.classes.map fun c => ⟨c.1, List.replicate 501 ⟨0, "f"⟩, 0⟩
    maxLimit := 2 ^ 52 - 1
    typeCnt := 4
    maxAllocPerPhase := M
    allocPrecision := true
    maxAllocPerPhaseByte := M * pageSize }

theorem strainedStart_budget (table : FileTable) (M : Nat) :
    PhaseBudget table M (strainedStart table M).toBook := by
  have hlen : (strainedStart table M).fileLst.length = table.classes.length := List.length_map _
  have hspeed : (strainedStart table M).speed = table.classes.length - 1 := by
    have hpos := table.nonempty
    have hlt := table.length_lt
    change wrapSub table.classes.length 1 = _
    simp only [wrapSub]
    omega
  have hpos := table.nonempty
  refine ⟨rfl, rfl, rfl, ⟨?_, hlen ▸ table.length_lt⟩, ?_⟩
  · rw [hlen, hspeed]
    omega
  · exact List.map_map

theorem strainedStart_strained (ht : PageTable table) (M : Nat) :
    Strained table M (opened (strainedStart table M).toBook M) := by
  obtain ⟨i, e, he, hpages, _⟩ := exists_largest ht
  have hb := strainedStart_budget table M
  have hlen : (strainedStart table M).fileLst.length = table.classes.length := List.length_map _
  refine ⟨hb.move rfl ⟨rfl, rfl, rfl, rfl⟩, rfl, ?_, rfl, ⟨Nat.zero_le _, i,
    ⟨e.1, List.replicate 501 ⟨0, "f"⟩, 0⟩, ?_, Nat.le_of_eq hpages.symm, ?_⟩, rfl⟩
  · have hpos := table.nonempty
    have hlt := table.length_lt
    change wrapSub table.classes.length 1 + 1 = (strainedStart table M).fileLst.length
    rw [hlen]
    simp only [wrapSub]
    omega
  · change (table.classes.map _)[i]? = _
    rw [List.getElem?_map, he]
    rfl
  · change (List.replicate 501 (⟨0, "f"⟩ : FileNode)).countP inUse + maxAllocPerSe <
      (List.replicate 501 (⟨0, "f"⟩ : FileNode)).length + 0
    rw [List.countP_replicate, List.length_replicate]
    decide

theorem BudgetFits.few (hbad : ¬BudgetFits ps table M) (hlargest : 0 < largestPages table) :
    M / min M (largestPages table) + 1 ≤ maxAllocPerSe := by
  have hM : 0 < M := Nat.pos_of_ne_zero fun hz => hbad (.inl hz)
  have hlt : M < maxAllocPerSe * largestPages table := by
    by_contra hge
    exact hbad (.inr (.inl (Nat.le_of_not_lt hge)))
  rcases Nat.le_total M (largestPages table) with hle | hle
  · rw [Nat.min_eq_left hle, Nat.div_self hM]
    decide
  · rw [Nat.min_eq_right hle]
    exact (Nat.div_lt_iff_lt_mul hlargest).mpr hlt

/-- A transition passes the budget, however it ends, where its script asks for class `i'`
first and for class `i` after it, and these overshoot. -/
theorem strained_overshoots (ht : PageTable table) (hM : 0 < M) {i i' n pages : Nat}
    (henter : script (stage 0) = 0) (hfirst : script (stage 1) = i')
    (hlast : ∀ k, 2 ≤ k → script (stage k) = i)
    {e e' : Nat × List String} (he : table.classes[i]? = some e)
    (hpages : e.1 = largestPages table * pageSize) (hall : FirstIsAll table → i = 0)
    (he' : table.classes[i']? = some e') (hpages' : e'.1 = pages * pageSize)
    (hall' : FirstIsAll table → i' = 0) (hlater : i' = i ∨ ¬FirstIsAll table)
    (hover : Overshoots ps M (min M pages) (min M (largestPages table)) n)
    (hfew : n + 1 ≤ maxAllocPerSe) :
    Ends (transRandAlloc (scriptWorld ps stage script) (n + 1)) (strainedStart table M)
      (fun _ t => M < pagesIn (t.allocTrack 0)) fun _ t => M < pagesIn (t.allocTrack 0) := by
  have hlist : ∀ {x : St (Option (Fin 3))}, Strained table M x.toBook →
      M < pagesIn (current x.toBook) → M < pagesIn (x.allocTrack 0) := by
    intro x hx hpass
    rwa [current, hx.curr] at hpass
  unfold transRandAlloc
  rw [ends_bind]
  refine ((transRandAllocEnter_precise rfl).and (transRandAllocEnter_script rfl henter)).mono ?_ ?_
  · intro l u hq
    obtain ⟨⟨hcnt, hslice, _, hu, _⟩, hi, hreads⟩ := hq
    have hstart : Strained table M u.toBook := hu ▸ strainedStart_strained ht M
    have hempty : current u.toBook = [] := by
      rw [hu]
      rfl
    have htype : countedType u.typeCnt = .anon := by
      rw [show u.typeCnt = 4 from congrArg (fun b : Book => b.typeCnt) hu]
      rfl
    have hone : u.cpuReads = 1 := hreads
    have hcount : l.cnt = M := hcnt
    rw [ends_bind]
    unfold repeatWhile
    rw [if_pos (by simpa [hcount] using Nat.ne_of_gt hM), ends_bind]
    refine (hstart.pass ht hM (by omega) hi he' hpages' hall' (by rw [hone, hfirst])
      (by rw [hempty]; decide) (.inl htype)).mono ?_ fun _ _ h => h.elim
    intro l' v hq
    obtain ⟨hneg, hi', hcnt', hv, hlen, hadd, hle, hless⟩ := hq
    have hpages0 : pagesIn (current v.toBook) = min M pages := by
      rw [hadd, hempty]
      exact Nat.zero_add _
    have hlater' : ∀ k, v.cpuReads ≤ k → script (stage k) = i := by
      intro k hk
      by_cases hk1 : k = 1
      · rcases hlater with hsame | hnot
        · rw [hk1, hfirst, hsame]
        · have hlt := hless hnot
          omega
      · exact hlast k (by omega)
    refine (hv.overshoot ht hM he hpages hall n hneg hi' hlater' ?_ ?_ ?_ ?_).mono ?_ ?_
    · rw [hlen, hempty]
      exact Nat.add_comm n 1 ▸ hfew
    · rw [hpages0, hcnt', hcount]
      exact hover.lasts
    · rw [hpages0]
      exact hover.before
    · rw [hpages0]
      exact hover.after
    · intro _ x hq
      -- leaving the transition keeps the tracker
      have hpass : M < pagesIn (x.allocTrack 0) := hlist hq.1 hq.2
      exact hpass
    · intro _ _ hq
      exact hlist hq.1 hq.2
  · rintro x u ⟨⟨_, hw | ⟨_, hfull⟩⟩, _⟩
    · exact absurd ⟨scriptWorld_willing.draws, scriptWorld_willing.malloc⟩ hw
    · exact absurd hfull (by decide : ¬(maxAlloc : Int) ≤ -1)

/-- A budget that does not fit is passed: the first request asks for one class,
the others for the largest. -/
theorem not_budgetKept (hps : pageSize ≤ ps) (ht : PageTable table)
    (hbad : ¬BudgetFits ps table M) : ¬BudgetKept ps table M := by
  intro h
  obtain ⟨i, e, he, hpages, hall⟩ := exists_largest ht
  obtain ⟨i', e', pages, he', hpages', hall', hlater, hover⟩ :=
    exists_overshoots hps ht hbad he hpages hall
  have hM : 0 < M := Nat.pos_of_ne_zero fun hz => hbad (.inl hz)
  have hlargest : 0 < largestPages table := by
    have hpos := (ht e (List.mem_of_getElem? he)).1
    exact Nat.pos_of_mul_pos_right (hpages ▸ hpos)
  have hfew := BudgetFits.few hbad hlargest
  generalize M / min M (largestPages table) = n at hover hfew
  -- one stage for the reading before the first request, one for that request, one for the rest
  let stage : Nat → Fin 3 := fun k => if k = 0 then 0 else if k = 1 then 1 else 2
  let script : Fin 3 → Nat := fun v => if v = 0 then 0 else if v = 1 then i' else i
  have hlast : ∀ k, 2 ≤ k → script (stage k) = i := by
    intro k hk
    simp only [script, stage, if_neg (show k ≠ 0 by omega), if_neg (show k ≠ 1 by omega)]
    rfl
  have hrun : Ends (transRandAlloc (scriptWorld ps stage script) (n + 1)) (strainedStart table M)
      (fun _ t => M < pagesIn (t.allocTrack 0)) fun _ t => M < pagesIn (t.allocTrack 0) :=
    strained_overshoots ht hM rfl rfl hlast he hpages hall he' hpages' hall' hlater hover hfew
  have hkept : Ends (transRandAlloc (scriptWorld ps stage script) (n + 1)) (strainedStart table M)
      (fun _ t => pagesIn (t.allocTrack 0) ≤ 0 + M) fun _ t => pagesIn (t.allocTrack 0) ≤ 0 + M :=
    h _ _ _ _ rfl (strainedStart_budget table M)
  rw [Nat.zero_add] at hkept
  cases hend : transRandAlloc (scriptWorld ps stage script) (n + 1) (strainedStart table M) with
  | ok a t => exact absurd (hkept.ok hend) (Nat.not_le_of_lt (hrun.ok hend))
  | error x t => exact absurd (hkept.error hend) (Nat.not_le_of_lt (hrun.error hend))

/-- On machines with pages of at least 4096 bytes a budget is kept, whatever the
number of files and the state of the pool, just when it fits the sizes of the classes. -/
theorem budget_kept (ps : Nat) (hps : pageSize ≤ ps) (table : FileTable) (ht : PageTable table)
    (M : Nat) (hfit : M * pageSize < 2 ^ 64) : BudgetKept ps table M ↔ BudgetFits ps table M := by
  refine ⟨fun h => by_contra fun hbad => not_budgetKept hps ht hbad h, ?_⟩
  rcases Nat.eq_zero_or_pos M with rfl | hM
  · exact fun _ => budgetKept_zero
  · rintro (hz | hfull | ⟨rfl, hall | ⟨q, hdvd, hsame⟩⟩)
    · omega
    · exact budgetKept_full hfull
    · exact budgetKept_even (Nat.dvd_refl M) fun b hb => hall.even hM hfit hb
    · exact budgetKept_even hdvd fun b hb => hsame.even ht hM hb

theorem budget_kept_three : BudgetKept 4096 smallTable 3 ↔ BudgetFits 4096 smallTable 3 :=
  budget_kept 4096 (by decide) smallTable (by simp [PageTable, smallTable, pageSize]) 3 (by decide)

/-- The first transition of a run with `-M 3`: the third file spills over to the class of two pages. -/
def spillStart : St Unit := (run plainWorld smallTable [.M 3, .e 1, .t 0] (fun _ => 0) () 1).st

theorem budget_passed : ¬BudgetKept 4096 smallTable 3 := by
  intro h
  have hbudget : PhaseBudget smallTable 3 spillStart.toBook :=
    ⟨by decide +kernel, by decide +kernel, by decide +kernel,
      ⟨by decide +kernel, by decide +kernel⟩, by decide +kernel⟩
  have hpages : (match transRandAlloc plainWorld 3 spillStart with
      | .ok _ t => pagesIn (t.allocTrack 0)
      | .error _ _ => 0) = 4 := by decide +kernel
  cases hrun : transRandAlloc plainWorld 3 spillStart with
  | ok a t =>
    rw [hrun] at hpages
    have hfour : pagesIn (t.allocTrack 0) = 4 := hpages
    have hkept : pagesIn (t.allocTrack 0) ≤ 0 + 3 := (h _ _ _ _ rfl hbudget).ok hrun
    omega
  | error e t =>
    rw [hrun] at hpages
    cases hpages

end Gobbler.Proofs
