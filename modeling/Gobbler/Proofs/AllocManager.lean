import Gobbler.Lib.Couple
import Gobbler.Model.AllocManager
import Gobbler.Proofs.Plenty
import Gobbler.Proofs.Script
import Gobbler.Proofs.Trace
import Gobbler.Proofs.Tracker
import Gobbler.Proofs.Transition

namespace Gobbler.Proofs
open Effect

variable {γ : Type} {w : World γ} {table : FileTable} {b b' : Book} {x : Option Halt}

/-- The two programs have the same ledger, budget, limit and number of mappings. -/
structure Alike (t s : St γ) : Prop where
  ledger : s.toLedger = t.toLedger
  byte : s.maxAllocPerPhaseByte = t.maxAllocPerPhaseByte
  limit : s.maxLimit = t.maxLimit
  mmaps : s.mmaps = t.mmaps

theorem Alike.fileLst {t s : St γ} (h : Alike t s) : s.fileLst = t.fileLst :=
  congrArg Ledger.fileLst h.ledger

theorem currTrack_alike : Couples Alike Eq (currTrack : M γ (List AllocRec)) currTrack := by
  refine couples_bind couples_get fun t s h => ?_
  have hcurr : s.curr = t.curr := congrArg Ledger.curr h.ledger
  have htrack : s.allocTrack = t.allocTrack := congrArg Ledger.allocTrack h.ledger
  rw [hcurr, htrack]
  refine couples_bind (V := fun _ _ => True) ?_ fun _ _ _ => couples_pure rfl
  exact couples_ite Iff.rfl (fun _ => couples_pure trivial) fun _ => couples_throw _

theorem addNewAlloc_alike (address len : Nat) (type : MemType) :
    Couples Alike Eq (addNewAlloc address len type : M γ Int) (addNewAlloc address len type) := by
  refine couples_bind currTrack_alike fun lst _ h => ?_
  subst h
  refine couples_ite Iff.rfl (fun _ => couples_pure rfl) fun _ => ?_
  refine couples_bind (couples_modify (R := Alike) fun t s h => ?_) fun _ _ _ => couples_pure rfl
  have hledger := congrArg (fun l : Ledger => { l with
    allocTrack := Function.update l.allocTrack l.curr.toNat
      (lst ++ [(⟨address, len, type⟩ : AllocRec)]) }) h.ledger
  exact ⟨hledger, h.byte, h.limit, h.mmaps⟩

theorem countPages_alike (type : MemType) (pageCnt : Nat) :
    Couples Alike (fun _ _ => True) (countPages type pageCnt : M γ PUnit) (countPages type pageCnt) :=
  couples_modify fun _ _ h =>
    ⟨congrArg (fun l => paged l type pageCnt) h.ledger, h.byte, h.limit, h.mmaps⟩

theorem settle_alike (node : Option (Nat × Nat)) (allocSuc : Int) :
    Couples Alike (fun _ _ => True) (settle node allocSuc : M γ PUnit) (settle node allocSuc) := by
  have hdone : Couples Alike (fun _ _ => True) (pure PUnit.unit : M γ PUnit) (pure PUnit.unit) :=
    couples_pure trivial
  cases node with
  | none => exact couples_ite Iff.rfl (fun _ => couples_throw _) fun _ => hdone
  | some node =>
    refine couples_ite Iff.rfl (fun _ => couples_modify (R := Alike) fun t s h => ?_) fun _ => ?_
    · have hledger := congrArg (fun l : Ledger => { l with
        fileLst := markNode l.fileLst node.1 node.2 allocSuc
        given := node :: l.given }) h.ledger
      exact ⟨hledger, h.byte, h.limit, h.mmaps⟩
    · exact couples_ite Iff.rfl (fun _ => couples_throw _) fun _ => hdone

theorem fileSize_alike (i : Nat) : Couples Alike Eq (fileSize i : M γ Nat) (fileSize i) := by
  refine couples_bind (V := fun _ _ => True) ?_ fun _ _ _ => ?_
  · exact couples_modify fun _ _ h => ⟨h.ledger, h.byte, h.limit, h.mmaps⟩
  · refine couples_bind couples_get fun t s h => ?_
    rw [h.fileLst]
    cases t.fileLst[i]? with
    | some c => exact couples_pure rfl
    | none => exact couples_throw _

theorem getFilePath_alike (len : Nat) :
    Couples Alike Eq (getFilePath len : M γ (Option (Nat × Nat) × Nat)) (getFilePath len) := by
  refine couples_bind couples_get fun t s h => ?_
  rw [h.fileLst]
  refine couples_bind (couples_set ?_) fun _ _ _ => couples_pure rfl
  have hledger := congrArg (fun l => searched l (getFilePathLoop t.fileLst 0 len).2.2) h.ledger
  exact ⟨hledger, h.byte, h.limit, h.mmaps⟩

theorem mmapper_alike (type : MemType) :
    Couples Alike Eq (mmapper w type) (mmapper w type) := by
  refine couples_bind couples_get fun t s h => ?_
  refine couples_bind (couples_set ?_) fun _ _ _ => ?_
  · exact ⟨h.ledger, h.byte, h.limit, congrArg (· + 1) h.mmaps⟩
  · rw [h.mmaps]
    refine couples_ite Iff.rfl (fun _ => ?_) fun _ => ?_
    · exact couples_bind (V := fun _ _ => False) (couples_throw _) fun _ _ h => h.elim
    · cases w.mmap t.mmaps with
      | none => exact couples_throw _
      | some map =>
        exact couples_ite Iff.rfl (fun _ => couples_pure rfl) fun _ => couples_throw _

/-- A mapping of `len` bytes, cut to the budget. -/
theorem clipped_alike (type : MemType) (len : Nat) (node : Option (Nat × Nat)) :
    Couples Alike Eq
      (do
        let s ← get
        let map ← mmapper w type
        return (map, clip s.maxAllocPerPhaseByte len, node) : M γ (Nat × Nat × Option (Nat × Nat)))
      (do
        let s ← get
        let map ← mmapper w type
        return (map, clip s.maxAllocPerPhaseByte len, node)) := by
  refine couples_bind couples_get fun t s h => ?_
  rw [h.byte]
  refine couples_bind (mmapper_alike type) fun map _ h => ?_
  exact h ▸ couples_pure rfl

theorem alloc_alike (type : MemType) (len : Nat) :
    Couples Alike Eq (alloc w type len) (alloc w type len) := by
  unfold alloc
  refine couples_ite Iff.rfl (fun ht => ?_) fun _ => ?_
  · refine couples_ite Iff.rfl (fun _ => ?_) fun _ => ?_
    · refine couples_bind (fileSize_alike 0) fun size _ h => ?_
      subst h
      exact couples_ite Iff.rfl (fun h => absurd ht h.1) fun _ => clipped_alike type size none
    · exact couples_ite Iff.rfl (fun h => absurd ht h.1) fun _ => clipped_alike type len none
  · refine couples_bind (getFilePath_alike len) fun found _ h => ?_
    subst h
    exact couples_ite Iff.rfl (fun _ => couples_pure rfl) fun _ => clipped_alike type found.2 found.1

/-- The limit is within the first class, so that no request draws a class. -/
def FirstFits (b : Book) : Prop :=
  ∃ c, b.fileLst[0]? = some c ∧ wrap (b.maxLimit * pageSize) ≤ c.size

theorem randomizeAllocLen_first {s : St γ} {c : FileClass} (hc : s.fileLst[0]? = some c)
    (hle : wrap (s.maxLimit * pageSize) ≤ c.size) :
    randomizeAllocLen w s = .ok c.size { s with calls := .fileLst 0 :: s.calls } := by
  have hsize : fileSize 0 s = .ok c.size { s with calls := .fileLst 0 :: s.calls } := by
    have hends : Ends (fileSize 0) s
        (fun size t => size = c.size ∧ t = { s with calls := .fileLst 0 :: s.calls })
        fun _ _ => False := by
      unfold fileSize note
      simp only [ends_bind, ends_modify, ends_get, hc, ends_pure]
      exact ⟨trivial, trivial⟩
    cases hrun : fileSize 0 s with
    | ok size t =>
      obtain ⟨rfl, rfl⟩ := hends.ok hrun
      rfl
    | error e t => exact (hends.error hrun).elim
  unfold randomizeAllocLen
  change (fileSize 0 >>= fun size => if wrap (s.maxLimit * pageSize) ≤ size then pure size else
    randomizeAllocLenLoop w (wrap (s.maxLimit * pageSize)) 10 0 >>= fileSize) s = _
  rw [bind_ok hsize, if_pos hle]
  rfl

theorem randomizeAllocLen_alike {t s : St γ} (h : Alike t s) (hfits : FirstFits t.toBook) :
    Both (randomizeAllocLen w) t (randomizeAllocLen w) s
      (fun a t' b s' => a = b ∧ Alike t' s') fun _ _ _ _ => False := by
  obtain ⟨c, hc, hle⟩ := hfits
  have ht := randomizeAllocLen_first (w := w) hc hle
  have hs : randomizeAllocLen w s = _ :=
    randomizeAllocLen_first (c := c) (by rw [h.fileLst, hc]) (by rw [h.limit]; exact hle)
  unfold Both Ends
  rw [ht, hs]
  exact ⟨rfl, h.ledger, h.byte, h.limit, h.mmaps⟩

theorem randomizeAllocType_alike :
    Couples (fun t s : St γ => Alike t s ∧ FirstFits t.toBook) Eq (randomizeAllocType w (-1))
      AllocManager.randomizeAllocType := by
  refine couples_bind couples_get fun t s h => ?_
  have hcnt : s.typeCnt = t.typeCnt := congrArg Ledger.typeCnt h.1.ledger
  rw [if_pos (by decide), hcnt]
  change Couples _ _ (do typeCntSucc; return countedType t.typeCnt)
    (do typeCntSucc; return countedType t.typeCnt)
  refine couples_bind (V := fun _ _ => True) ?_ fun _ _ _ => couples_pure rfl
  refine couples_bind couples_get fun t s hq => ?_
  obtain ⟨h, hfits⟩ := hq
  have hcnt : s.typeCnt = t.typeCnt := congrArg Ledger.typeCnt h.ledger
  rw [hcnt]
  refine couples_bind (V := fun _ _ => True) ?_ fun _ _ _ => couples_set ?_
  · exact couples_ite Iff.rfl (fun _ => couples_pure trivial) fun _ => couples_throw _
  · have hledger := congrArg (fun l : Ledger => { l with typeCnt := t.typeCnt + 1 }) h.ledger
    exact ⟨⟨hledger, h.byte, h.limit, h.mmaps⟩, hfits⟩

/-- A request with a precise budget and the request of the split module go on in step. -/
theorem randomAllocatorOne_alike {t s : St γ} (h : Alike t s) (hfits : FirstFits t.toBook)
    (cnt : Nat) :
    Both (randomAllocatorOne w (-1) cnt) t (AllocManager.randomAllocatorOne w) s
      (fun r t' typ s' => typ = r.1 ∧ Alike t' s') fun e t' e' s' => e' = e ∧ Alike t' s' := by
  apply Both.bind
  refine (randomizeAllocType_alike t s ⟨h, hfits⟩).weaken ?_ fun _ _ _ _ he => ⟨he.1, he.2.1⟩
  rintro type t' _ s' ⟨rfl, h', hfits'⟩
  apply Both.bind
  refine (randomizeAllocLen_alike h' hfits').weaken ?_ fun _ _ _ _ he => he.elim
  rintro len t' _ s' ⟨rfl, h'⟩
  apply Both.bind
  refine (alloc_alike type len t' s' h').weaken ?_ fun _ _ _ _ he => he
  rintro ⟨addr, len, node⟩ t' _ s' ⟨rfl, h'⟩
  dsimp only
  by_cases ha : addr = 0
  · rw [if_pos ha, if_pos ha]
    have hledger := congrArg denied h'.ledger
    exact ⟨rfl, hledger, h'.byte, h'.limit, h'.mmaps⟩
  · rw [if_neg ha, if_neg ha]
    apply Both.bind
    refine (addNewAlloc_alike addr len type t' s' h').weaken ?_ fun _ _ _ _ he => he
    rintro suc t' _ s' ⟨rfl, h'⟩
    apply Both.bind
    refine (countPages_alike type (len / w.pageSize) t' s' h').weaken ?_ fun _ _ _ _ he => he
    intro _ t' _ s' hq
    obtain ⟨_, h'⟩ := hq
    apply Both.bind
    refine (settle_alike node suc t' s' h').weaken ?_ fun _ _ _ _ he => he
    intro _ t' _ s' hq
    obtain ⟨_, h'⟩ := hq
    change Ends (do
      let s ← get
      if s.allocPrecision then
        return (type, if cnt < len / w.pageSize then 0 else cnt - len / w.pageSize)
      else return (type, wrapSub cnt 1)) t' (fun r u => type = r.1 ∧ Alike u s') fun _ _ => False
    simp only [ends_bind, ends_get]
    split <;> exact ⟨rfl, h'⟩

/-- The books with which `mem_gobbler.c` asks for one page in a transition. -/
structure PerPage (table : FileTable) (b : Book) : Prop extends PhaseBudget table 1 b where
  limit : b.maxLimit = 1
  access : b.accessType < 5
  tracked : Tracked b.toLedger

theorem wrap_page : wrap (1 * pageSize) = pageSize := by
  simp only [wrap, pageSize]
  omega

theorem PerPage.settled (h : PerPage table b) : Settled table ⟨b, .main⟩ := by
  refine ⟨h.sizes, h.access, .inr ⟨h.precise, ?_⟩⟩
  rw [h.byte, h.pages, wrap_page, Nat.one_mul]

theorem PerPage.move (h : PerPage table b) (hm : LedgerMove w b x b'.toLedger)
    (hs : SameBudget b b') : PerPage table b' := by
  refine ⟨h.toPhaseBudget.move hm.sizes hs, ?_, ?_, h.tracked.move hm⟩
  · exact (congrArg Options.maxLimit hs.options).trans h.limit
  · exact congrArg Options.accessType hs.options ▸ h.access

theorem PerPage.onePage (h : PerPage table b) : b.maxAllocPerPhaseByte = pageSize :=
  h.byte.trans (Nat.one_mul _)

theorem PerPage.fits (h : PerPage table b) (ht : PageTable table) : FirstFits b := by
  have hpos : 0 < b.fileLst.length := Nat.lt_of_le_of_lt (Nat.zero_le _) h.ready.speed
  obtain ⟨d, hd, hsize⟩ := h.settled.class (List.getElem_mem hpos)
  obtain ⟨hone, hdvd⟩ := ht d hd
  refine ⟨b.fileLst[0], List.getElem?_eq_getElem hpos, ?_⟩
  rw [h.limit, wrap_page]
  exact hsize ▸ Nat.le_of_dvd hone hdvd

/-- A request that was served leaves the transition nothing to do but touch. -/
theorem PerPage.touches {v : St γ} {r : AllocRec} (hps : w.pageSize = pageSize) (i : Nat)
    (hv : PerPage table v.toBook) (hin : InTracker v.toBook) (hone : current v.toBook = [r])
    (hlen : r.len = pageSize) :
    Ends (loopN w i) v (fun _ t => t.toBook = v.toBook ∧ t.mmaps = v.mmaps)
      (fun _ _ => ¬Undisturbed w) := by
  have hsized : Sized w v.toBook := by
    refine ⟨hps, hv.access, fun r' hr' => ?_⟩
    rw [hone, List.mem_singleton] at hr'
    rw [hr', hlen]
    decide
  refine (loopN_ends i v).mono (fun _ t ht => ⟨ht.kept.book, ht.kept.mmaps⟩) ?_
  intro e t hq
  obtain ⟨_, why⟩ := hq
  cases why with
  | touch why sized => exact why.disturbed (sized hsized)
  | track hout => exact absurd hin hout

theorem PerPage.enter (w : World γ) {b : Book} (hb : PerPage table b) (hroom : b.curr < maxAlloc) :
    PerPage table (opened b b.maxAllocPerPhase) :=
  hb.move (x := none) (w := w) (.phase hroom) ⟨rfl, rfl, rfl, rfl⟩

/-- The only pass of a transition of one page, beside the request of the split module. -/
theorem transRandAllocPass_alike {t s : St γ} (hps : w.pageSize = pageSize) (ht : PageTable table)
    (h : Alike t s) (hb : PerPage table t.toBook) (hnew : current t.toBook = []) (i : Nat) :
    Ends (transRandAllocPass w ⟨1, i, -1⟩) t
      (fun l t' => l.cnt = 0 ∧ PerPage table t'.toBook ∧
        Ends (AllocManager.randomAllocatorOne w) s
          (fun typ s' => Alike t' s' ∧ (typ = .typeMax → t'.refused ≠ 0)) fun _ _ => False)
      (fun e t' => ¬Undisturbed w ∨ Ends (AllocManager.randomAllocatorOne w) s (fun _ _ => False)
        fun e' s' => e' = e ∧ Alike t' s') := by
  unfold transRandAllocPass
  rw [ends_bind]
  refine (Ends.and (randomAllocatorOne_alike (w := w) h (hb.fits ht) 1)
    (randomAllocatorOne_ends hb.ready (-1) 1)).mono ?_ fun _ _ he => .inr he.1
  intro r v hq
  obtain ⟨typ, cnt⟩ := r
  obtain ⟨hsplit, led, hreq, hv⟩ := hq
  have hpv : PerPage table v.toBook := by
    rw [hv.book]
    exact hb.move (x := none) (.request hreq) (.ledger _ _)
  dsimp only at hsplit hreq ⊢
  by_cases hmax : typ = .typeMax
  · subst hmax
    obtain ⟨rfl, lst, _, rfl⟩ := hreq.of_typeMax
    have hrefused : v.refused ≠ 0 := by
      have hone : v.refused = t.refused + 1 := congrArg Ledger.refused hv.ledger
      omega
    rw [if_pos rfl]
    have hzero : wrapSub 1 1 = 0 := Nat.le_zero.mp (wrapSub_one_le Nat.one_ne_zero)
    exact ⟨hzero, hpv, hsplit.mono (fun _ _ hs => ⟨hs.2, fun _ => hrefused⟩) fun _ _ h => h⟩
  · rw [if_neg hmax, ends_bind]
    cases hreq with
    | refused => exact absurd rfl hmax
    | @served lst r node chosen granted addr track room counter =>
      have hlen := granted.one_page hb.settled ht hb.onePage
      have hone : current v.toBook = [r] := by
        rw [hv.book, current_taken, hnew, List.nil_append]
      have hin : InTracker v.toBook := by
        have hcurr : v.curr = t.curr :=
          (congrArg Ledger.curr hv.ledger).trans (marked_track _ _).2
        rw [InTracker, hcurr]
        exact track
      refine (hpv.touches hps i hin hone hlen).mono ?_ fun _ _ h => .inl h
      intro _ t' hq
      obtain ⟨hbook, hmmaps⟩ := hq
      refine ⟨?_, hbook ▸ hpv, hsplit.mono ?_ fun _ _ h => h⟩
      · change countdown t.allocPrecision 1 (r.len / w.pageSize) = 0
        rw [hb.precise, countdown_precise, hlen, hps]
        decide
      · rintro typ' s' ⟨rfl, halike⟩
        refine ⟨⟨?_, ?_, ?_, hmmaps ▸ halike.mmaps⟩, fun hx => absurd hx hmax⟩
        · exact halike.ledger.trans (congrArg Book.toLedger hbook).symm
        · exact halike.byte.trans (congrArg Book.maxAllocPerPhaseByte hbook).symm
        · exact halike.limit.trans (congrArg (fun b : Book => b.maxLimit) hbook).symm

/-- The touches of the transition, or the bound on its passes, may end the monolith alone. -/
def Excused (w : World γ) (passes : Nat) : Prop := passes = 0 ∨ ¬Undisturbed w

theorem transRandAlloc_split_ends {s : St γ} (hroom : s.curr < maxAlloc) {Q : Int → St γ → Prop}
    {E : Halt → St γ → Prop}
    (h : Ends (AllocManager.randomAllocatorOne w) { s with curr := s.curr + 1 }
      (fun typ t => Ends (do
        if typ = .typeMax then throw (.exit "Failure in Transition allocation\n")
        return 0) t Q E) E) : Ends (AllocManager.transRandAlloc w) s Q E := by
  unfold AllocManager.transRandAlloc
  rw [ends_bind]
  refine (goToNxtPhase_ends s).mono ?_ ?_
  · rintro _ _ ⟨_, rfl⟩
    rw [ends_bind]
    exact h
  · intro e _ hq
    obtain ⟨⟨_, hfull⟩, _⟩ := hq
    exact absurd hroom (Int.not_lt.mpr hfull)

/-- A call of the monolith, and a call of the split module beside it. -/
theorem transRandAlloc_alike {t s : St γ} (hps : w.pageSize = pageSize) (ht : PageTable table)
    (h : Alike t s) (hb : PerPage table t.toBook) (passes : Nat) :
    Ends (transRandAlloc w passes) t
      (fun _ t' => PerPage table t'.toBook ∧ Ends (AllocManager.transRandAlloc w) s
        (fun _ s' => Alike t' s') fun _ _ => t'.refused ≠ 0)
      (fun e t' => Excused w passes ∨ Ends (AllocManager.transRandAlloc w) s (fun _ _ => False)
        fun e' s' => e' = e ∧ s'.toLedger = t'.toLedger) := by
  have hcurr : s.curr = t.curr := congrArg Ledger.curr h.ledger
  unfold transRandAlloc
  rw [ends_bind]
  refine (transRandAllocEnter_precise hb.precise).mono ?_ ?_
  · intro r u hq
    obtain ⟨cnt, i, anonSlice⟩ := r
    obtain ⟨hcnt, hslice, hroom, hu, hmmaps⟩ := hq
    dsimp only at hcnt hslice
    rw [hb.pages] at hcnt
    subst hcnt hslice
    rw [ends_bind]
    cases passes with
    | zero => exact .inl (.inl rfl)
    | succ passes =>
      have hledger : u.toLedger = phased t.toLedger := congrArg Book.toLedger hu
      have hpu : PerPage table u.toBook := hu ▸ hb.enter w hroom
      have hau : Alike u { s with curr := s.curr + 1 } := by
        refine ⟨?_, ?_, ?_, h.mmaps.trans hmmaps.symm⟩
        · exact (congrArg phased h.ledger).trans hledger.symm
        · exact h.byte.trans (congrArg Book.maxAllocPerPhaseByte hu).symm
        · exact h.limit.trans (congrArg (fun b : Book => b.maxLimit) hu).symm
      have hnew : current u.toBook = [] := by
        rw [hu]
        exact hb.tracked.opened _
      unfold repeatWhile
      rw [if_pos (by rfl), ends_bind]
      refine (transRandAllocPass_alike hps ht hau hpu hnew i).mono ?_ ?_
      · intro l v hq
        obtain ⟨hl, hpv, hone⟩ := hq
        rw [repeatWhile_done (by simp [hl])]
        refine ⟨hpv.move (x := none) (w := w) .same ⟨rfl, rfl, rfl, rfl⟩,
          transRandAlloc_split_ends (hcurr ▸ hroom) ?_⟩
        refine hone.mono ?_ fun _ _ h => h.elim
        intro typ s' hq
        obtain ⟨halike, hfail⟩ := hq
        rw [ends_ite]
        refine ⟨hfail, fun _ => ?_⟩
        exact ⟨halike.ledger, halike.byte, halike.limit, halike.mmaps⟩
      · rintro e v (hw | hone)
        · exact .inl (.inr hw)
        · refine .inr (transRandAlloc_split_ends (hcurr ▸ hroom) ?_)
          exact hone.mono (fun _ _ h => h.elim) fun _ _ he => ⟨he.1, he.2.ledger⟩
  · rintro e u ⟨hu, hw | ⟨rfl, hfull⟩⟩
    · exact .inl (.inr hw)
    · refine .inr ?_
      unfold AllocManager.transRandAlloc
      rw [ends_bind]
      refine (goToNxtPhase_ends s).mono ?_ ?_
      · intro _ _ hq
        obtain ⟨hroom, _⟩ := hq
        exact absurd hroom (Int.not_lt.mpr (hcurr ▸ hfull))
      · rintro e _ ⟨⟨rfl, _⟩, rfl⟩
        exact ⟨rfl, h.ledger.trans (congrArg Book.toLedger hu).symm⟩

/-- Where a request was refused, or a page of the machine is more than one page
of the budget, a call of the monolith comes back only after a refusal. -/
theorem transRandAlloc_refused {t : St γ} (ht : PageTable table) (hb : PerPage table t.toBook)
    (h : t.refused ≠ 0 ∨ pageSize < w.pageSize) (passes : Nat) :
    Ends (transRandAlloc w passes) t (fun _ t' => PerPage table t'.toBook ∧ t'.refused ≠ 0)
      (fun _ t' => t.refused ≠ 0 → t'.refused ≠ 0) := by
  -- no refusal yet, and the count still at one page, which the machine counts as none
  apply (transRandAlloc_requests (I := fun l b => PerPage table b ∧ t.refused ≤ b.refused ∧
    (b.refused ≠ 0 ∨ (pageSize < w.pageSize ∧ l.cnt = 1))) hb.precise passes
    (fun _ _ hi => hi.1.ready) ?_ ?_).mono
  · intro _ t' hq
    obtain ⟨l, b, ⟨hpb, _, hcase⟩, hdone, ht'⟩ := hq
    rw [ht']
    refine ⟨hpb.move (x := none) (w := w) .same ⟨rfl, rfl, rfl, rfl⟩, ?_⟩
    rcases hcase with hne | ⟨_, hone⟩
    · exact hne
    · simp [hone] at hdone
  · rintro _ t' (ht' | ⟨l, b, ⟨_, hle, _⟩, ht' | ⟨_, led, aborted, ht'⟩⟩) hne
    · rw [ht']
      exact hne
    · rw [ht']
      omega
    · have hmono : b.refused ≤ led.refused := (LedgerMove.aborted aborted).refused_le
      rw [ht']
      change led.refused ≠ 0
      omega
  · intro l hcnt hroom
    rw [hb.pages] at hcnt
    exact ⟨hb.enter w hroom, Nat.le_refl _, h.imp id fun hbig => ⟨hbig, hcnt⟩⟩
  · intro l b typ cnt led hi more hreq
    obtain ⟨hpb, hle, hcase⟩ := hi
    have hmono : b.refused ≤ led.refused := (LedgerMove.request (h := none) hreq).refused_le
    refine ⟨hpb.move (x := none) (.request hreq) (.ledger _ _), Nat.le_trans hle hmono, ?_⟩
    rcases hcase with hne | ⟨hbig, hone⟩
    · exact .inl (by change led.refused ≠ 0; omega)
    · rw [hone] at hreq
      cases hreq with
      | refused => exact .inl (Nat.succ_ne_zero _)
      | @served _ r _ chosen granted =>
        have hlen := granted.one_page hpb.settled ht hpb.onePage
        refine .inr ⟨hbig, ?_⟩
        rw [nextLocals, if_neg chosen.ne_typeMax]
        change countdown b.allocPrecision 1 (r.len / w.pageSize) = 1
        rw [hpb.precise, countdown_precise, hlen, Nat.div_eq_of_lt hbig]

/-- The function is called `n` times. -/
def calls (m : M γ Int) (n : Nat) : M γ PUnit := times (do let _ ← m; return ⟨⟩) n

theorem ends_calls_succ {m : M γ Int} {n : Nat} {s : St γ} {Q : PUnit → St γ → Prop}
    {E : Halt → St γ → Prop} :
    Ends (calls m (n + 1)) s Q E ↔ Ends m s (fun _ t => Ends (calls m n) t Q E) E := by
  unfold calls
  simp only [times, ends_bind, ends_pure]

theorem calls_refused {t : St γ} (ht : PageTable table) (hb : PerPage table t.toBook)
    (h : t.refused ≠ 0) (passes n : Nat) :
    Ends (calls (transRandAlloc w passes) n) t (fun _ t' => t'.refused ≠ 0)
      (fun _ t' => t'.refused ≠ 0) := by
  induction n generalizing t with
  | zero => exact h
  | succ n ih =>
    rw [ends_calls_succ]
    refine (transRandAlloc_refused ht hb (.inl h) passes).mono ?_ fun _ _ he => he h
    intro _ u hq
    obtain ⟨hu, hne⟩ := hq
    exact ih hu hne

/-- Any number of calls of the monolith, and as many of the split module beside them. -/
theorem calls_alike {t s : St γ} (hps : w.pageSize = pageSize) (ht : PageTable table)
    (h : Alike t s) (hb : PerPage table t.toBook) (passes n : Nat) :
    Ends (calls (transRandAlloc w passes) n) t
      (fun _ t' => Ends (calls (AllocManager.transRandAlloc w) n) s
        (fun _ s' => s'.toLedger = t'.toLedger) fun _ _ => t'.refused ≠ 0)
      (fun e t' => Excused w passes ∨ Ends (calls (AllocManager.transRandAlloc w) n) s
        (fun _ _ => False) fun e' s' => t'.refused ≠ 0 ∨ (e' = e ∧ s'.toLedger = t'.toLedger)) := by
  induction n generalizing t s with
  | zero => exact h.ledger
  | succ n ih =>
    rw [ends_calls_succ]
    refine (transRandAlloc_alike hps ht h hb passes).mono ?_ ?_
    · intro _ t' hq'
      obtain ⟨hb', hsplit⟩ := hq'
      cases hs : AllocManager.transRandAlloc w s with
      | ok a s' =>
        have hnext : ∀ {Q : PUnit → St γ → Prop} {E : Halt → St γ → Prop},
            Ends (calls (AllocManager.transRandAlloc w) n) s' Q E →
            Ends (calls (AllocManager.transRandAlloc w) (n + 1)) s Q E := by
          intro Q E hq
          rw [ends_calls_succ, Ends, hs]
          exact hq
        refine (ih (hsplit.ok hs) hb').mono (fun _ _ hq => hnext hq) ?_
        rintro e u (hx | hq)
        · exact .inl hx
        · exact .inr (hnext hq)
      | error e s' =>
        have hend : ∀ {Q : PUnit → St γ → Prop} {E : Halt → St γ → Prop}, E e s' →
            Ends (calls (AllocManager.transRandAlloc w) (n + 1)) s Q E := by
          intro Q E hq
          rw [ends_calls_succ, Ends, hs]
          exact hq
        refine (calls_refused ht hb' (hsplit.error hs) passes n).mono (fun _ _ hu => hend hu) ?_
        exact fun _ _ hu => .inr (hend (.inl hu))
    · rintro e t' (hx | hsplit)
      · exact .inl hx
      · refine .inr ?_
        rw [ends_calls_succ]
        exact hsplit.mono (fun _ _ h => h.elim) fun _ _ he => .inr he

/-- The start of either program, with the values of the globals that
`alloc_manager.c` uses without defining them. -/
structure Begun (table : FileTable) (s : St γ) : Prop where
  ledger : s.toLedger = emptyLedger table
  mmaps : s.mmaps = 0
  limit : s.maxLimit = 1
  pages : s.maxAllocPerPhase = 1
  precise : s.allocPrecision = true
  byte : s.maxAllocPerPhaseByte = pageSize
  access : s.accessType < 5
  speed : s.speed < table.classes.length

theorem Begun.alike {t s : St γ} (ht : Begun table t) (hs : Begun table s) : Alike t s :=
  ⟨hs.ledger.trans ht.ledger.symm, hs.byte.trans ht.byte.symm, hs.limit.trans ht.limit.symm,
    hs.mmaps.trans ht.mmaps.symm⟩

theorem Begun.perPage {s : St γ} (h : Begun table s) : PerPage table s.toBook := by
  have hlst : s.fileLst = table.fileLst := congrArg Ledger.fileLst h.ledger
  have hlen : s.fileLst.length = table.classes.length := by
    rw [hlst, FileTable.fileLst, List.length_map]
  refine ⟨⟨h.pages, h.precise, h.byte.trans (Nat.one_mul _).symm,
    ⟨hlen ▸ h.speed, hlen ▸ table.length_lt⟩, ?_⟩, h.limit, h.access, ?_⟩
  · rw [hlst, FileTable.fileLst, List.map_map]
    rfl
  · rw [h.ledger]
    exact ⟨Int.le_refl _, (by decide : (-1 : Int) ≤ maxAlloc), fun _ _ => rfl⟩

/-- No file request of the calls is refused. -/
def NeverRefused (m : M γ PUnit) (s : St γ) : Prop :=
  Ends m s (fun _ t => t.refused = 0) fun _ t => t.refused = 0

/-- On machines with pages of `ps` bytes any number of calls leads both programs
to the same ledger, as long as no file request of the monolith is refused: when
the monolith comes back, and, where nothing stops its touches, also when the
machine ends the programs. -/
def SplitAgrees (ps : Nat) : Prop :=
  ∀ (γ : Type) (w : World γ) (table : FileTable) (t s : St γ) (n : Nat), w.pageSize = ps →
    PageTable table → Begun table t → Begun table s → n ≤ maxAlloc →
    (∀ passes t', calls (transRandAlloc w passes) n t = .ok ⟨⟩ t' → t'.refused = 0 →
      ∃ s', calls (AllocManager.transRandAlloc w) n s = .ok ⟨⟩ s' ∧ s'.toLedger = t'.toLedger) ∧
    (Undisturbed w → (∀ passes, NeverRefused (calls (transRandAlloc w passes) n) t) →
      ∃ passes, Both (calls (transRandAlloc w passes) n) t (calls (AllocManager.transRandAlloc w) n) s
        (fun _ t' _ s' => s'.toLedger = t'.toLedger)
        fun e t' e' s' => e' = e ∧ s'.toLedger = t'.toLedger)

theorem splitAgrees_page : SplitAgrees pageSize := by
  intro γ w table t s n hps ht hbt hbs _
  have hcalls := fun passes => calls_alike hps ht (hbt.alike hbs) hbt.perPage passes n
  refine ⟨fun passes t' hrun hzero => ?_, fun hw hnever => ⟨1, ?_⟩⟩
  · have hsplit := (hcalls passes).ok hrun
    cases hs : calls (AllocManager.transRandAlloc w) n s with
    | ok a s' => exact ⟨s', rfl, hsplit.ok hs⟩
    | error e s' => exact absurd hzero (hsplit.error hs)
  · refine ((hcalls 1).and (hnever 1)).mono ?_ ?_
    · intro _ t' hq
      obtain ⟨hsplit, hzero⟩ := hq
      exact hsplit.mono (fun _ _ h => h) fun _ _ h => h hzero
    · rintro e t' ⟨hx | hsplit, hzero⟩
      · rcases hx with hx | hx
        · cases hx
        · exact absurd hw hx
      · refine hsplit.mono (fun _ _ h => h) ?_
        rintro e' s' (hne | he)
        · exact absurd hzero hne
        · exact he

/-- With plenty of nodes for every class a call of the monolith meets no refusal. -/
theorem transRandAlloc_plenty {t : St γ} {len : Nat} (hb : PerPage table t.toBook)
    (hlen : ∀ e ∈ table.classes, e.1 ≤ len) (h : Plenty len (opened t.toBook 1))
    (hzero : t.refused = 0) (passes : Nat) :
    Ends (transRandAlloc w passes) t (fun _ t' => t'.refused = 0) (fun _ t' => t'.refused = 0) := by
  have hsizes : ∀ b : Book, PerPage table b → ∀ c ∈ b.fileLst, c.size ≤ len := by
    intro b hb c hc
    obtain ⟨e, he, hsize⟩ := hb.settled.class hc
    exact hsize ▸ hlen e he
  apply (transRandAlloc_requests (I := fun _ b => PerPage table b ∧ Plenty len b ∧ b.refused = 0)
    hb.precise passes (fun _ _ hi => hi.1.ready) ?_ ?_).mono
  · intro _ t' hq
    obtain ⟨_, b, ⟨_, _, hz⟩, _, ht'⟩ := hq
    rw [ht']
    exact hz
  · rintro _ t' (ht' | ⟨_, b, ⟨hpb, hb', hz⟩, ht' | ⟨_, led, aborted, ht'⟩⟩)
    · rw [ht']
      exact hzero
    · rw [ht']
      exact hz
    · rw [ht']
      exact (hb'.refused (hsizes b hpb) (.aborted aborted)).trans hz
  · intro _ _ hroom
    refine ⟨hb.enter w hroom, ?_, hzero⟩
    rw [hb.pages]
    exact h
  · intro _ b _ _ led hi _ hreq
    obtain ⟨hpb, hb', hz⟩ := hi
    have hm : LedgerMove w b none led := .request hreq
    exact ⟨hpb.move hm (.ledger _ _), hb'.request hreq, (hb'.refused (hsizes b hpb) hm).trans hz⟩

def onePageStart : St (Option (Fin 3)) :=
  { initial oneTable (fun _ => 0) none with
    maxLimit := 1
    maxAllocPerPhase := 1
    allocPrecision := true
    maxAllocPerPhaseByte := pageSize }

theorem onePageStart_begun : Begun oneTable onePageStart :=
  ⟨rfl, rfl, rfl, rfl, rfl, rfl, by decide, by decide +kernel⟩

theorem onePageStart_nodes : Plenty 4096 (opened onePageStart.toBook 1) :=
  ⟨by decide +kernel, 0, ⟨4096, List.replicate 501 ⟨0, "a"⟩, 0⟩, by decide +kernel,
    by decide, by decide +kernel⟩

theorem onePageStart_split (ps : Nat) :
    ∃ s', calls (AllocManager.transRandAlloc (scriptWorld ps (fun _ => 0) fun _ => 0)) 1
      onePageStart = .ok ⟨⟩ s' :=
  ⟨_, by with_unfolding_all rfl⟩

/-- Where a page of the machine is more than 4096 bytes, a call of the split
module comes back and a call of the monolith does not. -/
theorem not_splitAgrees {ps : Nat} (hps : pageSize < ps) : ¬SplitAgrees ps := by
  intro h
  let w := scriptWorld ps (fun _ => 0) fun _ => 0
  have hpage := onePageStart_begun.perPage
  have hnever : ∀ passes, Ends (transRandAlloc w passes) onePageStart (fun _ t => t.refused = 0)
      fun _ t => t.refused = 0 :=
    transRandAlloc_plenty hpage (by decide) onePageStart_nodes rfl
  have ht : PageTable oneTable := by
    intro e he
    rw [show e = (4096, List.replicate 501 "a") from List.mem_singleton.mp he]
    exact ⟨by decide, Nat.dvd_refl _⟩
  have hnever' : ∀ passes, NeverRefused (calls (transRandAlloc w passes) 1) onePageStart := by
    intro passes
    rw [NeverRefused, ends_calls_succ]
    exact hnever passes
  have hw : Undisturbed w := ⟨scriptWorld_willing.draws, scriptWorld_willing.malloc⟩
  obtain ⟨passes, hboth⟩ := (h _ w oneTable onePageStart onePageStart 1 rfl ht onePageStart_begun
    onePageStart_begun (by decide)).2 hw hnever'
  obtain ⟨s', hs⟩ := onePageStart_split ps
  have hback : Ends (calls (transRandAlloc w passes) 1) onePageStart
      (fun _ t => t.refused ≠ 0) fun _ _ => True := by
    rw [ends_calls_succ]
    exact (transRandAlloc_refused ht hpage (.inr hps) passes).mono (fun _ _ hq => hq.2)
      fun _ _ _ => trivial
  cases hrun : calls (transRandAlloc w passes) 1 onePageStart with
  | ok a t' => exact (hback.ok hrun) ((hnever' passes).ok hrun)
  | error e t' => exact ((hboth.error hrun).ok hs).elim

/-- The split module agrees with the monolith just where a page of the machine
is a page of the budget. -/
theorem split_agrees (ps : Nat) (hps : pageSize ≤ ps) : SplitAgrees ps ↔ ps = pageSize := by
  refine ⟨fun h => ?_, fun h => h ▸ splitAgrees_page⟩
  by_contra hne
  exact not_splitAgrees (by omega) h

theorem split_agrees_page : SplitAgrees 4096 ↔ 4096 = pageSize := split_agrees 4096 (by decide)

/-- One call of the split module maps a page; the monolith maps page after page. -/
theorem split_disagrees : ¬SplitAgrees 65536 := not_splitAgrees (by decide)

end Gobbler.Proofs
