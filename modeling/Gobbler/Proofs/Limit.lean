import Gobbler.Lib.Countdown
import Gobbler.Proofs.Records

namespace Gobbler.Proofs
open Countdown

variable {γ : Type} {w : World γ} {table : FileTable} {ps most : Nat} {b : Book} {l : Ledger}

/-- The largest of a list of numbers, zero when there is none. -/
def largest (ns : List Nat) : Nat := ns.foldr max 0

theorem le_largest {ns : List Nat} {n : Nat} (h : n ∈ ns) : n ≤ largest ns :=
  List.le_max_of_le' 0 h (Nat.le_refl n)

/-- The pages of the largest class. -/
def largestPages (table : FileTable) : Nat := largest (table.classes.map fun c => c.1 / pageSize)

/-- The pages in use, as `main` adds them up. -/
def usedPages (l : Ledger) : Nat := wrap (l.fileCnt + l.anonCnt)

/-- The most a phase of the run may have added past the limit, for classes of
at most `most` pages. -/
def overshoot (most : Nat) (b : Book) : Nat :=
  if b.allocPrecision then
    if largest b.budgets = 0 then 0 else largest b.budgets + most - 1
  else 18 * most

/-- A transition with a precise budget. -/
structure PreciseWithin (b : Book) (t : TransLocals) : Prop where
  cnt : t.cnt ≤ largest b.budgets
  within : Within (b.maxLimit + largest b.budgets) t.cnt (usedPages b.toLedger)

/-- A transition whose count was drawn. -/
structure DrawnWithin (most : Nat) (b : Book) (t : TransLocals) : Prop where
  cnt : t.cnt ≤ 18
  within : usedPages b.toLedger + t.cnt * most ≤ b.maxLimit + 18 * most

structure LimitKept (most : Nat) (v : View) : Prop where
  used : usedPages v.book.toLedger ≤ v.book.maxLimit + overshoot most v.book
  precise : ∀ e t l, v.pc = .trans e t l → v.book.allocPrecision = true → PreciseWithin v.book l
  drawn : ∀ e t l, v.pc = .trans e t l → v.book.allocPrecision = false →
    DrawnWithin most v.book l

theorem usedPages_paged {type : MemType} (ht : type = .file ∨ type = .anon) (pages : Nat) :
    usedPages (paged l type pages) ≤ usedPages l + pages := by
  rcases ht with rfl | rfl
  · simp only [usedPages, paged, if_true, reduceCtorEq, if_false, wrap]
    omega
  · simp only [usedPages, paged, if_true, reduceCtorEq, if_false, wrap]
    omega

theorem usedPages_taken {lst : List FileClass} {r : AllocRec} {node : Option (Nat × Nat)}
    (ht : r.type = .file ∨ r.type = .anon) :
    usedPages (taken ps l lst r node) ≤ usedPages l + r.len / ps := by
  have hp := usedPages_paged (l := recorded (searched (counted l) lst) r) ht (r.len / ps)
  cases node <;> exact hp

theorem GrantedFor.type {lst : List FileClass} {type : MemType} {len : Nat}
    {node : Option (Nat × Nat)} (h : Granted b lst type len node) : type = .file ∨ type = .anon := by
  cases h with
  | anon => exact .inr rfl
  | file => exact .inl rfl

/-- No mapping has more pages than the largest class. -/
theorem GrantedFor.le_largest {lst : List FileClass} {type : MemType} {len : Nat}
    {node : Option (Nat × Nat)} (h : Granted b lst type len node)
    (hs : b.fileLst.map FileClass.size = table.classes.map Prod.fst) :
    len / pageSize ≤ largestPages table := by
  obtain ⟨c, hc, rfl⟩ := h.class
  obtain ⟨e, he, hsize⟩ := class_of_sizes hs hc
  calc clip b.maxAllocPerPhaseByte c.size / pageSize ≤ c.size / pageSize :=
        Nat.div_le_div_right (clip_le _ _)
    _ = e.1 / pageSize := by rw [hsize]
    _ ≤ largestPages table := Proofs.le_largest (List.mem_map_of_mem he)

theorem LimitKept.same {b b' : Book} {pc pc' : Pc} (h : LimitKept most ⟨b, pc⟩)
    (hl : b'.toLedger = b.toLedger) (hm : b'.maxLimit = b.maxLimit)
    (hb : b'.budgets = b.budgets) (hp : b'.allocPrecision = b.allocPrecision)
    (htrans : ∀ e t l, pc' ≠ .trans e t l) : LimitKept most ⟨b', pc'⟩ := by
  refine ⟨?_, fun e t l ht => absurd ht (htrans e t l), fun e t l ht => absurd ht (htrans e t l)⟩
  have hused := h.used
  simp only [overshoot] at hused ⊢
  rw [hl, hm, hb, hp]
  exact hused

theorem usedPages_empty (table : FileTable) : usedPages (emptyLedger table) = 0 := by
  simp [usedPages, emptyLedger, initial, wrap]

/-- A locality that goes on has found the limit respected. -/
theorem Located.under {b b' : Book} (h : Located b b') (go : ¬Over b') :
    usedPages b'.toLedger ≤ b'.maxLimit := by
  obtain ⟨rows, _⟩ := h
  have hno := (not_or.mp go).2
  simp only [limited, Bool.or_eq_true, decide_eq_true_eq, not_or] at hno
  exact Nat.le_of_not_lt hno.2

theorem LimitKept.located {b b' : Book} (h : LimitKept most ⟨b, .main⟩)
    (hu : Unread table ⟨b, .main⟩) (hl : Located b b') : LimitKept most ⟨b', .main⟩ := by
  obtain ⟨rows, hvec | ⟨hvec, _, _⟩⟩ := hl
  · exact h.same rfl rfl rfl rfl (by simp)
  · refine ⟨?_, by simp, by simp⟩
    have hused := h.used
    cases hp : b.allocPrecision with
    | true =>
      simp only [overshoot, limited, relined, hp] at hused ⊢
      exact hused
    | false =>
      have hl : b.toLedger = emptyLedger table := (hu.fresh hvec hp).1
      change usedPages b.toLedger ≤ _
      rw [hl, usedPages_empty]
      exact Nat.zero_le _

theorem LimitKept.enter {b : Book} {cnt i : Nat} {anonSlice : Int}
    (hu : usedPages b.toLedger ≤ b.maxLimit) (hs : Start (called b) cnt anonSlice) :
    LimitKept most ⟨opened (called b) cnt, .trans b.wcetMs b.timeG ⟨cnt, i, anonSlice⟩⟩ := by
  have hcnt : cnt ≤ largest (cnt :: b.budgets) := le_largest List.mem_cons_self
  have hused : usedPages (opened (called b) cnt).toLedger ≤ b.maxLimit := hu
  refine ⟨Nat.le_trans hused (Nat.le_add_right _ _), ?_, ?_⟩
  · intro e t l hpc hp
    cases hpc
    exact ⟨hcnt, .start _ (Nat.add_le_add hused hcnt)⟩
  · intro e t l hpc hp
    cases hpc
    cases hs with
    | precise hp' => exact absurd (hp'.symm.trans hp) Bool.noConfusion
    | drawn _ _ high => exact ⟨high, Nat.add_le_add hused (Nat.mul_le_mul_right most high)⟩

theorem DrawnWithin.next {b b' : Book} {t t' : TransLocals} {pages : Nat}
    (h : DrawnWithin most b t) (hc : t.cnt ≠ 0) (hm : b'.maxLimit = b.maxLimit)
    (hu : usedPages b'.toLedger ≤ usedPages b.toLedger + pages) (hp : pages ≤ most)
    (ht : t'.cnt ≤ t.cnt - 1) : DrawnWithin most b' t' := by
  have hcnt := h.cnt
  have hwithin := h.within
  refine ⟨by omega, ?_⟩
  have hmul : t'.cnt * most ≤ (t.cnt - 1) * most := Nat.mul_le_mul_right most ht
  have hsub : (t.cnt - 1) * most + most = t.cnt * most := by
    rw [← Nat.succ_mul, Nat.succ_eq_add_one, Nat.sub_add_cancel (Nat.one_le_iff_ne_zero.mpr hc)]
  omega

/-- One pass of a transition, whose request used some pages or none. -/
theorem LimitKept.pass {b : Book} {e : ℚ} {t : Granularity} {l l' : TransLocals} {led : Ledger}
    {pages : Nat} (h : LimitKept most ⟨b, .trans e t l⟩) (more : l.cnt ≠ 0)
    (hu : usedPages led ≤ usedPages b.toLedger + pages) (hp : pages ≤ most)
    (hprec : b.allocPrecision = true → l'.cnt ≤ l.cnt - pages)
    (hdrawn : b.allocPrecision = false → l'.cnt ≤ l.cnt - 1) :
    LimitKept most ⟨withLedger b led, .trans e t l'⟩ := by
  refine ⟨?_, ?_, ?_⟩
  · change usedPages led ≤ b.maxLimit + overshoot most b
    unfold overshoot
    cases hpr : b.allocPrecision with
    | true =>
      obtain ⟨hcnt, hwithin⟩ := h.precise e t l rfl hpr
      have hover := hwithin.overshoot more hp
      simp only at hcnt hover
      rw [if_pos rfl, if_neg (by omega)]
      omega
    | false =>
      have hnext : DrawnWithin most (withLedger b led) l' :=
        (h.drawn e t l rfl hpr).next more rfl hu hp (hdrawn hpr)
      have hwithin := hnext.within
      simp only [withLedger] at hwithin
      rw [if_neg Bool.false_ne_true]
      omega
  · intro e' t' l'' hpc hpr
    cases hpc
    obtain ⟨hcnt, hwithin⟩ := h.precise e t l rfl hpr
    have hle := hprec hpr
    refine ⟨Nat.le_trans hle (Nat.le_trans (Nat.sub_le _ _) hcnt), ?_⟩
    exact (hwithin.spend more hu).lower hle
  · intro e' t' l'' hpc hpr
    cases hpc
    exact (h.drawn e t l rfl hpr).next more rfl hu hp (hdrawn hpr)

theorem LimitKept.request {b : Book} {e : ℚ} {t : Granularity} {l : TransLocals} {typ : MemType}
    {cnt : Nat} {led : Ledger} (hps : ps = pageSize) (hs : Settled table ⟨b, .trans e t l⟩)
    (h : LimitKept (largestPages table) ⟨b, .trans e t l⟩) (more : l.cnt ≠ 0)
    (hreq : Request ps b l.anonSlice l.cnt typ cnt led) :
    LimitKept (largestPages table) ⟨withLedger b led, .trans e t (nextLocals l typ cnt)⟩ := by
  have hone := wrapSub_one_le more
  cases hreq with
  | refused =>
    have hle : wrapSub l.cnt 1 ≤ l.cnt := Nat.le_trans hone (Nat.sub_le _ _)
    exact h.pass more (Nat.le_refl _) (Nat.zero_le _) (fun _ => hle) fun _ => hone
  | @served lst r node chosen granted _ _ _ =>
    have hne := chosen.ne_typeMax
    refine h.pass more (usedPages_taken chosen.cases) (hps ▸ granted.le_largest hs.sizes) ?_ ?_
    · intro hp
      simp only [nextLocals, if_neg hne, hp, countdown_precise]
      exact Nat.le_refl _
    · intro hp
      simp only [nextLocals, if_neg hne, hp, countdown, Bool.false_eq_true, if_false]
      exact hone

theorem LimitKept.halt {b : Book} {e : ℚ} {t : Granularity} {l : TransLocals} {h : Halt}
    (hl : LimitKept most ⟨b, .trans e t l⟩) : LimitKept most ⟨b, .stopped h⟩ :=
  hl.same rfl rfl rfl rfl (by simp)

/-- A request that ends the program may have counted its pages. -/
theorem LimitKept.aborted {b : Book} {e : ℚ} {t : Granularity} {l : TransLocals} {x : Halt}
    {led : Ledger} (hps : w.pageSize = pageSize) (hs : Settled table ⟨b, .trans e t l⟩)
    (h : LimitKept (largestPages table) ⟨b, .trans e t l⟩) (more : l.cnt ≠ 0)
    (ha : Aborted w b l.anonSlice x led) :
    LimitKept (largestPages table) ⟨withLedger b led, .stopped x⟩ := by
  have hpass : ∀ {pages : Nat}, usedPages led ≤ usedPages b.toLedger + pages →
      pages ≤ largestPages table → LimitKept (largestPages table) ⟨withLedger b led, .stopped x⟩ := by
    intro pages hu hp
    have hnext : LimitKept (largestPages table)
        ⟨withLedger b led, .trans e t ⟨0, l.i, l.anonSlice⟩⟩ :=
      h.pass more hu hp (fun _ => Nat.zero_le _) fun _ => Nat.zero_le _
    exact hnext.halt
  cases ha with
  | early => exact hpass (Nat.le_add_right (usedPages b.toLedger) 0) (Nat.zero_le _)
  | full granted _ => exact hpass (usedPages_paged granted.type _) (hps ▸ granted.le_largest hs.sizes)

theorem LimitKept.idle {b b' : Book} {pc pc' : Pc} (h : LimitKept most ⟨b, pc⟩)
    (hi : Idle w b pc b' pc') : LimitKept most ⟨b', pc'⟩ := by
  cases hi with
  | stopped => exact h
  | _ => exact h.same rfl rfl rfl rfl (by simp)

theorem LimitKept.move {v v' : View} (hps : w.pageSize = pageSize) (hs : Settled table v)
    (hu : Unread table v) (h : LimitKept (largestPages table) v) (hm : Move w v v') :
    LimitKept (largestPages table) v' := by
  cases hm with
  | @boot b b' _ pc _ ledger next =>
    have hl : b'.toLedger = emptyLedger table := ledger.trans (hu.booting _ rfl).1
    refine ⟨?_, ?_, ?_⟩
    · change usedPages b'.toLedger ≤ _
      rw [hl, usedPages_empty]
      exact Nat.zero_le _
    · rcases next with rfl | ⟨_, rfl, _⟩ <;> simp
    · rcases next with rfl | ⟨_, rfl, _⟩ <;> simp
  | idle hi => exact h.idle hi
  | finish located _ | overrun located _ | skip located _ | enterHalt located _ _ =>
    exact (h.located hu located).same rfl rfl rfl rfl (by simp)
  | enter located go _ start => exact .enter (located.under go) start
  | request more request => exact h.request hps hs more request
  | trouble more request _ _ => exact (h.request hps hs more request).halt
  | aborted more aborted => exact h.aborted hps hs more aborted

theorem run_limitKept (w : World γ) (hps : w.pageSize = pageSize) (table : FileTable)
    (opts : List Opt) (mem : Nat → UInt8) (gen : γ) (n : Nat) :
    LimitKept (largestPages table) (view (run w table opts mem gen n)) := by
  refine (run_invariant w table opts mem gen (I := fun v => Unread table v ∧
    LimitKept (largestPages table) v) ?_ ?_ n).2
  · refine ⟨booted_unread table opts mem gen, ?_, by simp [view, booted], by simp [view, booted]⟩
    change usedPages (emptyLedger table) ≤ _
    rw [usedPages_empty]
    exact Nat.zero_le _
  · intro v v' _ hs hq hm
    obtain ⟨hu, h⟩ := hq
    exact ⟨hu.move hm, h.move hps hs hu hm⟩

theorem Move.started {b b' : Book} {e : ℚ} {t : Granularity} {l : TransLocals}
    (hm : Move w ⟨b, .main⟩ ⟨b', .trans e t l⟩) : usedPages b.toLedger ≤ b.maxLimit := by
  cases hm with
  | idle hi => cases hi
  | enter located go _ _ =>
    have hu := located.under go
    obtain ⟨_, _ | _⟩ := located
    · exact hu
    · exact hu

/-- The pages in use exceed the limit at most by what one phase may add, and no
transition starts above the limit. -/
theorem page_limit_overshoot (w : World γ) (hps : w.pageSize = 4096) (table : FileTable)
    (opts : List Opt) (mem : Nat → UInt8) (gen : γ) (n : Nat)
    (hcnt : (run w table opts mem gen n).st.fileCnt + (run w table opts mem gen n).st.anonCnt < 2 ^ 64) :
    let s := (run w table opts mem gen n).st
    s.fileCnt + s.anonCnt ≤ s.maxLimit + overshoot (largestPages table) s.toBook ∧
      ∀ e t l, (run w table opts mem gen n).pc = .main →
        (run w table opts mem gen (n + 1)).pc = .trans e t l → s.fileCnt + s.anonCnt ≤ s.maxLimit := by
  intro s
  have hused : usedPages s.toLedger = s.fileCnt + s.anonCnt := by
    simp only [usedPages, wrap]
    exact Nat.mod_eq_of_lt hcnt
  refine ⟨hused ▸ (run_limitKept w hps table opts mem gen n).used, ?_⟩
  intro e t l hmain htrans
  have hm := (run_turned w table opts mem gen n).move
  rw [hmain, htrans] at hm
  exact hused ▸ hm.started

theorem page_limit_overshoot_spill :
    let s := (run plainWorld smallTable [.M 3, .l 3, .e 1, .t 0] (fun _ => 0) () 8).st
    s.fileCnt + s.anonCnt ≤ s.maxLimit + overshoot (largestPages smallTable) s.toBook ∧
      ∀ e t l, (run plainWorld smallTable [.M 3, .l 3, .e 1, .t 0] (fun _ => 0) () 8).pc = .main →
        (run plainWorld smallTable [.M 3, .l 3, .e 1, .t 0] (fun _ => 0) () 9).pc = .trans e t l →
        s.fileCnt + s.anonCnt ≤ s.maxLimit :=
  page_limit_overshoot plainWorld rfl smallTable [.M 3, .l 3, .e 1, .t 0] (fun _ => 0) () 8
    (by decide +kernel)

end Gobbler.Proofs
