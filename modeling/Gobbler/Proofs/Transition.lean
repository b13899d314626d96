import Gobbler.Proofs.Records

namespace Gobbler.Proofs
open Effect

variable {γ : Type} {w : World γ} {table : FileTable} {b b' : Book} {x : Option Halt}

/-- The machine refuses nothing that the touches ask for. -/
structure Undisturbed (w : World γ) : Prop where
  draws : Draws w
  malloc : ∀ n, w.malloc n = true

theorem TouchHalt.text {text : String} (h : TouchHalt (.exit text)) :
    text = "Failure to alloc fix's node:" ∨ text = "Interval len is zero\n" := by
  generalize hx : Halt.exit text = x at h
  cases h <;> simp_all

theorem TouchHalt.disturbed {h : Halt} (ht : TouchHalt h) (hf : Forced w h) : ¬Undisturbed w := by
  intro hw
  cases hf with
  | draw hd => exact hd hw.draws
  | malloc hm => exact absurd ((hw.malloc _).symm.trans hm) (by decide)
  | path => exact absurd ht.text (by decide)
  | mmap => exact absurd ht.text (by decide)
  | madvise => exact absurd ht.text (by decide)

/-- With a precise budget a transition starts with its pages as count. -/
theorem transRandAllocEnter_precise {s : St γ} (hp : s.allocPrecision = true) :
    Ends (transRandAllocEnter w) s
      (fun l t => l.cnt = s.maxAllocPerPhase ∧ l.anonSlice = -1 ∧ s.curr < maxAlloc ∧
        t.toBook = opened s.toBook s.maxAllocPerPhase ∧ t.mmaps = s.mmaps)
      (fun e t => t.toBook = s.toBook ∧ (¬Undisturbed w ∨
        (e = .exit "reached maximum phase transitions\n" ∧ (maxAlloc : Int) ≤ s.curr))) := by
  unfold transRandAllocEnter
  rw [ends_bind]
  refine ((randLim_quiet (by decide) (by decide) s).and (randLim_kept 3 s)).mono ?_ ?_
  · intro i t hq
    obtain ⟨_, hk, _⟩ := hq
    have hcurr : t.curr = s.curr := hk.curr
    have hpt : t.allocPrecision = true :=
      (congrArg (fun b : Book => b.allocPrecision) hk.book).trans hp
    have hpages : t.maxAllocPerPhase = s.maxAllocPerPhase :=
      congrArg (fun b : Book => b.maxAllocPerPhase) hk.book
    rw [ends_bind]
    refine (goToNxtPhase_ends t).mono ?_ ?_
    · rintro _ _ ⟨hroom, rfl⟩
      simp only [ends_bind, ends_get]
      unfold randomizeAllocCount
      simp only [ends_bind, ends_get, hpt, if_true, ends_pure, ends_modify]
      refine ⟨hpages, trivial, hcurr ▸ hroom, ?_, hk.mmaps⟩
      rw [← hk.book]
      simp only [opened, hpt]
    · rintro e _ ⟨⟨he, hfull⟩, rfl⟩
      exact ⟨hk.book, .inr ⟨he, hcurr ▸ hfull⟩⟩
  · intro e t hq
    obtain ⟨⟨_, hf⟩, hk, ht⟩ := hq
    exact ⟨hk.book, .inl (ht.disturbed hf)⟩

/-- A pass of the loop makes one request. -/
theorem transRandAllocPass_request {s : St γ} (hr : Ready s.toBook) {l : TransLocals}
    (more : l.cnt ≠ 0) :
    Ends (transRandAllocPass w l) s
      (fun l' t => ∃ typ cnt led, Request w.pageSize s.toBook l.anonSlice l.cnt typ cnt led ∧
        l' = nextLocals l typ cnt ∧ t.toBook = withLedger s.toBook led)
      (fun _ t => ∃ led, t.toBook = withLedger s.toBook led ∧
        ((∃ h, Aborted w s.toBook l.anonSlice h led) ∨
          ∃ typ cnt, Request w.pageSize s.toBook l.anonSlice l.cnt typ cnt led)) := by
  refine (transRandAllocPass_turned hr more 0 .secs).mono ?_ ?_
  · intro l' t ht
    have hm := ht.move
    generalize t.toBook = b at hm
    cases hm with
    | idle hi => cases hi
    | request _ request => exact ⟨_, _, _, request, rfl, rfl⟩
  · intro h t ht
    have hm := ht.move
    generalize t.toBook = b at hm
    cases hm with
    | idle hi =>
      cases hi with
      | leaveHalt done => exact absurd done more
    | trouble _ request => exact ⟨_, rfl, .inr ⟨_, _, request⟩⟩
    | aborted _ aborted => exact ⟨_, rfl, .inl ⟨_, aborted⟩⟩

/-- The rule for a whole call: what its requests keep of the count and the books
holds at its ends, but for the ledger of a request that was broken off. -/
theorem transRandAlloc_requests {s : St γ} {I : TransLocals → Book → Prop}
    (hp : s.allocPrecision = true) (passes : Nat) (hready : ∀ l b, I l b → Ready b)
    (hstart : ∀ l, l.cnt = s.maxAllocPerPhase → s.curr < maxAlloc →
      I l (opened s.toBook s.maxAllocPerPhase))
    (hstep : ∀ l b typ cnt led, I l b → l.cnt ≠ 0 →
      Request w.pageSize b l.anonSlice l.cnt typ cnt led →
      I (nextLocals l typ cnt) (withLedger b led)) :
    Ends (transRandAlloc w passes) s
      (fun _ t => ∃ l b, I l b ∧ l.cnt = 0 ∧ t.toBook = left b)
      (fun _ t => t.toBook = s.toBook ∨ ∃ l b, I l b ∧
        (t.toBook = b ∨ ∃ h led, Aborted w b l.anonSlice h led ∧ t.toBook = withLedger b led)) := by
  unfold transRandAlloc
  rw [ends_bind]
  apply (transRandAllocEnter_precise hp).mono
  · intro l u hq
    obtain ⟨hcnt, _, hroom, hu, _⟩ := hq
    have hopen : I l u.toBook := hu ▸ hstart l hcnt hroom
    rw [ends_bind]
    apply (ends_repeatWhile (I := fun l (v : St γ) => I l v.toBook) ?_ ?_ passes l u hopen).mono
    · intro l v hq
      obtain ⟨hi, hdone⟩ := hq
      exact ⟨l, v.toBook, hi, by simpa using hdone, rfl⟩
    · exact fun _ _ he => he
    · intro l v hi
      exact .inr ⟨l, v.toBook, hi, .inl rfl⟩
    · intro l v hi hmore
      have more : l.cnt ≠ 0 := by simpa using hmore
      apply (transRandAllocPass_request (hready _ _ hi) more).mono
      · rintro _ x ⟨typ, cnt, led, hreq, rfl, hx⟩
        rw [hx]
        exact hstep _ _ _ _ _ hi more hreq
      · rintro _ x ⟨led, hx, ⟨h, aborted⟩ | ⟨typ, cnt, hreq⟩⟩
        · exact .inr ⟨l, v.toBook, hi, .inr ⟨h, led, aborted, hx⟩⟩
        · exact .inr ⟨_, _, hstep _ _ _ _ _ hi more hreq, .inl hx⟩
  · intro _ u hq
    exact .inl hq.1

/-- What the options and a line of a vector set for a transition is as before. -/
structure SameBudget (b b' : Book) : Prop where
  options : b'.toOptions = b.toOptions
  pages : b'.maxAllocPerPhase = b.maxAllocPerPhase
  precise : b'.allocPrecision = b.allocPrecision
  byte : b'.maxAllocPerPhaseByte = b.maxAllocPerPhaseByte

theorem SameBudget.ledger (b : Book) (l : Ledger) : SameBudget b (withLedger b l) :=
  ⟨rfl, rfl, rfl, rfl⟩

/-- The books of a transition with a budget of `M` pages. -/
structure PhaseBudget (table : FileTable) (M : Nat) (b : Book) : Prop where
  pages : b.maxAllocPerPhase = M
  precise : b.allocPrecision = true
  byte : b.maxAllocPerPhaseByte = M * pageSize
  ready : Ready b
  sizes : b.fileLst.map FileClass.size = table.classes.map Prod.fst

theorem PhaseBudget.move {M : Nat} (h : PhaseBudget table M b)
    (hm : b'.fileLst.map FileClass.size = b.fileLst.map FileClass.size) (hs : SameBudget b b') :
    PhaseBudget table M b' := by
  have hlen : b'.fileLst.length = b.fileLst.length := by
    simpa only [List.length_map] using congrArg List.length hm
  have hspeed : b'.speed = b.speed := congrArg Options.speed hs.options
  exact ⟨hs.pages.trans h.pages, hs.precise.trans h.precise, hs.byte.trans h.byte,
    ⟨hspeed ▸ hlen ▸ h.ready.speed, hlen ▸ h.ready.length⟩, hm.trans h.sizes⟩

theorem PhaseBudget.class {M : Nat} (h : PhaseBudget table M b) {c : FileClass}
    (hc : c ∈ b.fileLst) : ∃ e ∈ table.classes, e.1 = c.size :=
  class_of_sizes h.sizes hc

end Gobbler.Proofs
