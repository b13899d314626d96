import Gobbler.Proofs.LifeCycle

namespace Gobbler.Proofs
open Effect

variable {γ : Type} {w : World γ} {table : FileTable} {opts : List Opt} {mem : Nat → UInt8}
  {gen : γ} {b : Book}

theorem parseLine_lt {isIpfvt : Bool} {line : List Char} {cnt : Nat} {t : ℚ}
    (h : parseLine isIpfvt line = some (cnt, t)) : cnt < 2 ^ 64 := by
  cases isIpfvt with
  | true =>
    simp only [parseLine, if_true] at h
    split at h
    · next hcnt _ =>
      simp only [Option.some.injEq, Prod.mk.injEq] at hcnt h
      omega
    · cases h
  | false =>
    simp only [parseLine, Bool.false_eq_true, if_false] at h
    split at h
    · next hcnt _ =>
      simp only [Option.map_eq_some_iff] at hcnt
      obtain ⟨first, _, rfl⟩ := hcnt
      simp only [Option.some.injEq, Prod.mk.injEq] at h
      exact h.1 ▸ ofLong_lt _
    · cases h

theorem Located.fits {b' : Book} (h : Located b b') (hb : b.maxAllocPerPhase < 2 ^ 64) :
    b'.maxAllocPerPhase < 2 ^ 64 := by
  obtain ⟨rows, _ | ⟨_, _, parsed⟩⟩ := h
  · exact hb
  · exact parseLine_lt parsed

/-- The count of a phase fits its type. -/
theorem Move.fits {v v' : View} (hm : Move w v v') (h : v.book.maxAllocPerPhase < 2 ^ 64) :
    v'.book.maxAllocPerPhase < 2 ^ 64 := by
  cases hm with
  | boot configured => exact configured.fits h
  | idle hi => cases hi <;> exact h
  | finish located | overrun located | skip located | enter located | enterHalt located =>
    exact located.fits h
  | request | trouble | aborted => exact h

theorem run_fits (w : World γ) (table : FileTable) (opts : List Opt) (mem : Nat → UInt8) (gen : γ)
    (n : Nat) : (run w table opts mem gen n).st.maxAllocPerPhase < 2 ^ 64 :=
  run_invariant w table opts mem gen (I := fun v => v.book.maxAllocPerPhase < 2 ^ 64)
    (by decide : maxTransitionCnt < 2 ^ 64) (fun _ _ _ _ h hm => hm.fits h) n

/-- What a transition has left to spend. -/
def remaining : Pc → Nat
  | .trans _ _ l => l.cnt
  | _ => 0

/-- The pages of a list of records. -/
def mappedPages (ps : Nat) (rs : List AllocRec) : Nat := (rs.map fun r => r.len / ps).sum

/-- The budgets of the phases so far were spent. A drawn budget counts requests,
and one asked for counts pages and, where a request found no file, requests. -/
structure Spent (ps : Nat) (v : View) : Prop where
  drawn : v.book.allocPrecision = false →
    v.book.budgets.sum = (allRecords v.book.toLedger).length + v.book.refused + remaining v.pc
  bounds : v.book.allocPrecision = false → ∀ cnt ∈ v.book.budgets, 5 ≤ cnt ∧ cnt ≤ 18
  asked : v.book.allocPrecision = true →
    v.book.budgets.sum ≤ mappedPages ps (allRecords v.book.toLedger) + v.book.refused + remaining v.pc
  fits : remaining v.pc < 2 ^ 64

/-- A move that changes neither the records and refusals nor the mode. -/
theorem Spent.same {b' : Book} {pc pc' : Pc} {ps : Nat} (h : Spent ps ⟨b, pc⟩)
    (hrecords : allRecords b'.toLedger = allRecords b.toLedger) (hrefused : b'.refused = b.refused)
    (hbudgets : b'.budgets = b.budgets) (hmode : b'.allocPrecision = b.allocPrecision)
    (hleft : remaining pc' = remaining pc) : Spent ps ⟨b', pc'⟩ := by
  refine ⟨fun hp => ?_, fun hp => ?_, fun hp => ?_, hleft ▸ h.fits⟩
  · simp only [hbudgets, hrecords, hrefused, hleft, h.drawn (hmode ▸ hp)]
  · simpa only [hbudgets] using h.bounds (hmode ▸ hp)
  · simpa only [hbudgets, hrecords, hrefused, hleft] using h.asked (hmode ▸ hp)

/-- Before the first phase nothing was spent. -/
theorem Spent.fresh {ps : Nat} {pc : Pc} (hl : b.toLedger = emptyLedger table)
    (hb : b.budgets = []) (hleft : remaining pc = 0) : Spent ps ⟨b, pc⟩ := by
  have hrecords : allRecords b.toLedger = [] := by rw [hl]; rfl
  have hrefused : b.refused = 0 := congrArg Ledger.refused hl
  refine ⟨fun _ => ?_, fun _ => ?_, fun _ => ?_, ?_⟩ <;> simp [hrecords, hrefused, hb, hleft]

/-- A vector line asks for its pages before anything was requested. -/
theorem Spent.located {b' : Book} {ps : Nat} (h : Spent ps ⟨b, .main⟩) (hu : Unread table ⟨b, .main⟩)
    (hl : Located b b') : Spent ps ⟨b', .main⟩ := by
  obtain ⟨rows, hvec | ⟨hvec, _, _⟩⟩ := hl
  · exact h.same rfl rfl rfl rfl rfl
  · refine ⟨by simp [limited, relined], by simp [limited, relined], fun _ => ?_, h.fits⟩
    change b.budgets.sum ≤ mappedPages ps (allRecords b.toLedger) + b.refused + 0
    cases hp : b.allocPrecision with
    | true => exact h.asked hp
    | false =>
      obtain ⟨_, hbudgets⟩ := hu.fresh hvec hp
      simp [show b.budgets = [] from hbudgets]

theorem Spent.enter {ps cnt i : Nat} {anonSlice : Int} {e : ℚ} {t : Granularity}
    (h : Spent ps ⟨b, .main⟩) (ht : Tracked b.toLedger) (hs : Start (called b) cnt anonSlice)
    (hfits : b.maxAllocPerPhase < 2 ^ 64) :
    Spent ps ⟨opened (called b) cnt, .trans e t ⟨cnt, i, anonSlice⟩⟩ := by
  have hrecords : allRecords (opened (called b) cnt).toLedger = allRecords b.toLedger :=
    allRecords_phased ht
  have hcnt : cnt < 2 ^ 64 := by
    cases hs with
    | precise => exact hfits
    | drawn _ _ high => omega
  refine ⟨fun hp => ?_, fun hp => ?_, fun hp => ?_, hcnt⟩
  · have hdrawn := h.drawn hp
    simp only [hrecords, remaining] at hdrawn ⊢
    simp only [opened, called, List.sum_cons, hdrawn]
    omega
  · have hbounds := h.bounds hp
    simp only [opened, called, List.forall_mem_cons]
    refine ⟨?_, hbounds⟩
    cases hs with
    | precise hp' => exact absurd (hp'.symm.trans hp) Bool.noConfusion
    | drawn _ low high => exact ⟨low, high⟩
  · have hasked := h.asked hp
    simp only [hrecords, remaining] at hasked ⊢
    simp only [opened, called, List.sum_cons]
    omega

/-- What a request takes off the count of its transition. -/
theorem RequestFor.spends {ps cnt : Nat} {l : TransLocals} {typ : MemType} {led : Ledger}
    (hreq : Request ps b l.anonSlice l.cnt typ cnt led) (more : l.cnt ≠ 0) (hfits : l.cnt < 2 ^ 64) :
    (allRecords led = allRecords b.toLedger ∧ led.refused = b.refused + 1 ∧
        (nextLocals l typ cnt).cnt = l.cnt - 1) ∨
      ∃ r, allRecords led = allRecords b.toLedger ++ [r] ∧ led.refused = b.refused ∧
        (nextLocals l typ cnt).cnt = if b.allocPrecision then l.cnt - r.len / ps else l.cnt - 1 := by
  have hone : wrapSub l.cnt 1 = l.cnt - 1 := wrapSub_of_le (Nat.one_le_iff_ne_zero.mpr more) hfits
  cases hreq with
  | refused => exact .inl ⟨rfl, rfl, hone⟩
  | @served lst r node chosen _ _ track =>
    refine .inr ⟨r, allRecords_taken track.1, (taken_counts ps b.toLedger lst r node).2, ?_⟩
    simp only [nextLocals, if_neg chosen.ne_typeMax]
    cases b.allocPrecision with
    | true => simp only [countdown_precise, if_true]
    | false => simp [countdown, hone]

theorem Spent.request {ps cnt : Nat} {e : ℚ} {t : Granularity} {l : TransLocals} {typ : MemType}
    {led : Ledger} (h : Spent ps ⟨b, .trans e t l⟩) (more : l.cnt ≠ 0)
    (hreq : Request ps b l.anonSlice l.cnt typ cnt led) :
    Spent ps ⟨withLedger b led, .trans e t (nextLocals l typ cnt)⟩ := by
  have hdrawn := h.drawn
  have hasked := h.asked
  have hfits : l.cnt < 2 ^ 64 := h.fits
  obtain ⟨hrecords, hrefused, hcnt⟩ | ⟨r, hrecords, hrefused, hcnt⟩ := hreq.spends more hfits
  · refine ⟨fun hp => ?_, h.bounds, fun hp => ?_, ?_⟩
    · have hsum := hdrawn hp
      simp only [remaining, withLedger, hrecords, hrefused, hcnt] at hsum ⊢
      omega
    · have hsum := hasked hp
      simp only [remaining, withLedger, hrecords, hrefused, hcnt] at hsum ⊢
      omega
    · simp only [remaining, hcnt]
      omega
  · refine ⟨fun hp => ?_, h.bounds, fun hp => ?_, ?_⟩
    · have hsum := hdrawn hp
      change b.allocPrecision = false at hp
      simp only [hp, Bool.false_eq_true, if_false] at hcnt
      simp only [remaining, withLedger, hrecords, hrefused, hcnt, List.length_append,
        List.length_singleton] at hsum ⊢
      omega
    · have hsum := hasked hp
      change b.allocPrecision = true at hp
      simp only [hp, if_true] at hcnt
      simp only [remaining, withLedger, hrecords, hrefused, hcnt, mappedPages, List.map_append,
        List.sum_append, List.map_singleton, List.sum_singleton] at hsum ⊢
      omega
    · have hle := Nat.sub_le l.cnt (r.len / ps)
      simp only [remaining, hcnt]
      split <;> omega

theorem Spent.move {ps : Nat} {v v' : View} (h : halted v.pc = none → Spent ps v)
    (ht : Tracked v.book.toLedger) (hu : Unread table v) (hfits : v.book.maxAllocPerPhase < 2 ^ 64)
    (hps : w.pageSize = ps) (hm : Move w v v') (hrun : halted v'.pc = none) : Spent ps v' := by
  have hs := h (hm.running hrun)
  subst hps
  cases hm with
  | boot configured ledger next =>
    obtain ⟨hl, hb⟩ := hu.booting _ rfl
    rcases next with rfl | ⟨x, rfl, _⟩
    · exact .fresh (ledger.trans hl) (configured.budgets.trans hb) rfl
    · cases hrun
  | idle hi =>
    cases hi with
    | ended | unread | leaveHalt | holdHalt | stopped => cases hrun
    | leave done _ => exact hs.same rfl rfl rfl rfl done.symm
    | hold | held => exact hs.same rfl rfl rfl rfl rfl
  | finish | overrun | enterHalt | trouble | aborted => cases hrun
  | skip located _ _ => exact (hs.located hu located).same rfl rfl rfl rfl rfl
  | enter located _ _ start =>
    exact (hs.located hu located).enter (located.ledger ▸ ht) start (located.fits hfits)
  | request more request => exact hs.request more request

theorem run_unread (w : World γ) (table : FileTable) (opts : List Opt) (mem : Nat → UInt8) (gen : γ)
    (n : Nat) : Unread table (view (run w table opts mem gen n)) :=
  run_invariant w table opts mem gen (booted_unread table opts mem gen)
    (fun _ _ _ _ hu hm => hu.move hm) n

theorem run_spent (w : World γ) (table : FileTable) (opts : List Opt) (mem : Nat → UInt8) (gen : γ)
    (n : Nat) (hrun : halted (run w table opts mem gen n).pc = none) :
    Spent w.pageSize (view (run w table opts mem gen n)) := by
  induction n with
  | zero => exact .fresh (show _ = emptyLedger table from rfl) rfl rfl
  | succ n ih =>
    exact Spent.move ih (run_tracked w table opts mem gen n) (run_unread w table opts mem gen n)
      (run_fits w table opts mem gen n) rfl (run_turned w table opts mem gen n).move hrun

/-- Budgets are spent and nothing else is. A drawn budget of 5 to 18 is the
number of requests, each of which made a mapping or found no file. A budget of
`-M` or of a vector is left only when as many pages were mapped, a request that
found no file counting for one. -/
theorem budgets_spent (w : World γ) (table : FileTable) (opts : List Opt) (mem : Nat → UInt8)
    (gen : γ) (n : Nat) (hrun : halted (run w table opts mem gen n).pc = none) :
    let m := run w table opts mem gen n
    let records := allRecords m.st.toLedger
    (m.st.allocPrecision = false → (∀ cnt ∈ m.st.budgets, 5 ≤ cnt ∧ cnt ≤ 18) ∧
        m.st.budgets.sum = records.length + m.st.refused + remaining m.pc) ∧
      (m.st.allocPrecision = true →
        m.st.budgets.sum ≤ mappedPages w.pageSize records + m.st.refused + remaining m.pc) := by
  have h := run_spent w table opts mem gen n hrun
  exact ⟨fun hp => ⟨h.bounds hp, h.drawn hp⟩, h.asked⟩

theorem budgets_spent_drawn :
    let m := run plainWorld smallTable [.e 1, .t 0] (fun _ => 0) () 4
    let records := allRecords m.st.toLedger
    (m.st.allocPrecision = false → (∀ cnt ∈ m.st.budgets, 5 ≤ cnt ∧ cnt ≤ 18) ∧
        m.st.budgets.sum = records.length + m.st.refused + remaining m.pc) ∧
      (m.st.allocPrecision = true →
        m.st.budgets.sum ≤ mappedPages 4096 records + m.st.refused + remaining m.pc) :=
  budgets_spent plainWorld smallTable [.e 1, .t 0] (fun _ => 0) () 4 (by decide +kernel)

end Gobbler.Proofs
