import Gobbler.Proofs.Refinement

namespace Gobbler.Proofs
open Effect

variable {γ : Type} {w : World γ} {table : FileTable} {opts : List Opt} {mem : Nat → UInt8} {gen : γ}

def phased (l : Ledger) : Ledger := { l with curr := l.curr + 1 }

/-- What a move can do to the ledger. Only an aborted request ends the program. -/
inductive LedgerMove (w : World γ) (b : Book) : Option Halt → Ledger → Prop
  | same {h : Option Halt} : LedgerMove w b h b.toLedger
  | phase {h : Option Halt} (room : b.curr < maxAlloc) : LedgerMove w b h (phased b.toLedger)
  | request {h : Option Halt} {l : Ledger} {anonSlice : Int} {cnt cnt' : Nat} {typ : MemType}
    (request : Request w.pageSize b anonSlice cnt typ cnt' l) : LedgerMove w b h l
  | aborted {h : Halt} {l : Ledger} {anonSlice : Int} (aborted : Aborted w b anonSlice h l) :
    LedgerMove w b (some h) l

theorem Located.ledger {b b' : Book} (h : Located b b') : b'.toLedger = b.toLedger := by
  obtain ⟨_, _ | _⟩ := h <;> rfl

/-- `main` finds its line before it calls `job`. -/
theorem Located.jobs {b b' : Book} (h : Located b b') :
    b'.jobs = b.jobs ∧ b'.skipped = b.skipped := by
  obtain ⟨_, _ | _⟩ := h <;> exact ⟨rfl, rfl⟩

theorem Located.counted {b b' : Book} (h : Located b b') :
    b'.curr = b.curr ∧ b'.curJob = b.curJob + 1 ∧ b'.maxPhase = b.maxPhase := by
  obtain ⟨_, _ | _⟩ := h <;> exact ⟨rfl, rfl, rfl⟩

theorem Move.ledger {v v' : View} (h : Move w v v') :
    LedgerMove w v.book (halted v'.pc) v'.book.toLedger := by
  cases h with
  | boot _ ledger _ => exact ledger ▸ .same
  | idle hi => cases hi <;> exact .same
  | finish located _ | overrun located _ => exact located.ledger ▸ .same
  | skip located _ => exact located.ledger ▸ .same
  | @enter b b' cnt i anonSlice located _ room _ =>
    have hl := located.ledger
    have hc : b'.curr = b.curr := congrArg Ledger.curr hl
    change LedgerMove w b none (phased b'.toLedger)
    rw [hl]
    exact .phase (hc ▸ room)
  | enterHalt located _ _ => exact located.ledger ▸ .same
  | request _ request => exact .request request
  | trouble _ request _ _ => exact .request request
  | aborted _ aborted => exact .aborted aborted

/-- A program that has stopped stays so. -/
theorem Move.running {v v' : View} (h : Move w v v') (hrun : halted v'.pc = none) :
    halted v.pc = none := by
  cases h with
  | idle hi =>
    cases hi with
    | stopped => exact hrun
    | _ => rfl
  | _ => rfl

theorem markNode_sizes (lst : List FileClass) (i j : Nat) (allocSuc : Int) :
    (markNode lst i j allocSuc).map FileClass.size = lst.map FileClass.size := by
  apply List.ext_getElem?
  intro k
  simp only [markNode, List.getElem?_map, List.getElem?_modify]
  cases lst[k]? with
  | none => rfl
  | some c => by_cases h : i = k <;> simp [h]

theorem LedgerMove.sizes {b : Book} {x : Option Halt} {l : Ledger}
    (h : LedgerMove w b x l) :
    l.fileLst.map FileClass.size = b.fileLst.map FileClass.size := by
  cases h with
  | same => rfl
  | phase _ => rfl
  | request request =>
    cases request with
    | refused _ _ _ pool => exact pool.sizes
    | @served lst r node _ granted _ _ _ =>
      have hs := granted.pool.sizes
      cases node with
      | none => exact hs
      | some node => exact (markNode_sizes _ _ _ _).trans hs
  | aborted aborted =>
    cases aborted with
    | early _ pool => exact pool.sizes
    | full granted _ => exact granted.pool.sizes

/-- What holds of the options, the budget and the classes all along a run. -/
structure Settled (table : FileTable) (v : View) : Prop where
  sizes : v.book.fileLst.map FileClass.size = table.classes.map Prod.fst
  access : v.book.accessType < 5
  budget : Budgeted v.book

theorem Located.settled {b b' : Book} (h : Located b b') :
    b'.accessType = b.accessType ∧ (Budgeted b → Budgeted b') := by
  obtain ⟨_, _ | _⟩ := h
  · exact ⟨rfl, id⟩
  · exact ⟨rfl, fun _ => .inr ⟨rfl, rfl⟩⟩

theorem Settled.move {v v' : View} (h : Settled table v) (hm : Move w v v') : Settled table v' := by
  refine ⟨hm.ledger.sizes.trans h.sizes, ?_, ?_⟩
  · cases hm with
    | boot configured _ _ => exact configured.access h.access
    | idle hi => cases hi <;> exact h.access
    | finish located _ | overrun located _ | skip located _ | enter located _ _ _
    | enterHalt located _ _ =>
      exact located.settled.1.trans_lt h.access
    | request | trouble | aborted => exact h.access
  · cases hm with
    | boot configured _ _ => exact configured.budget h.budget
    | idle hi => cases hi <;> exact h.budget
    | finish located _ | overrun located _ | skip located _ | enter located _ _ _
    | enterHalt located _ _ =>
      exact located.settled.2 h.budget
    | request | trouble | aborted => exact h.budget

/-- The ledger before the first phase. -/
def emptyLedger (table : FileTable) : Ledger := (initial table (fun _ => 0) ()).toLedger

/-- Nothing was requested before the options were read, nor, with a vector,
before its first line was. -/
structure Unread (table : FileTable) (v : View) : Prop where
  booting : ∀ opts, v.pc = .boot opts → v.book.toLedger = emptyLedger table ∧ v.book.budgets = []
  fresh : v.book.vector = true → v.book.allocPrecision = false →
    v.book.toLedger = emptyLedger table ∧ v.book.budgets = []
  trans : ∀ e t l, v.pc = .trans e t l → v.book.vector = true → v.book.allocPrecision = true

theorem Located.precise {b b' : Book} (h : Located b b') (hv : b'.vector = true) :
    b'.allocPrecision = true := by
  obtain ⟨rows, hvec | _⟩ := h
  · exact absurd (hv.symm.trans hvec) Bool.noConfusion
  · rfl

theorem Unread.move {v v' : View} (h : Unread table v) (hm : Move w v v') : Unread table v' := by
  have hboot := hm.booted
  cases hm with
  | boot configured ledger next =>
    obtain ⟨hl, hb⟩ := h.booting _ rfl
    have hfresh := And.intro (ledger.trans hl) (configured.budgets.trans hb)
    refine ⟨fun _ _ => hfresh, fun _ _ => hfresh, ?_⟩
    intro e t l hpc
    rcases next with rfl | ⟨_, rfl, _⟩ <;> cases hpc
  | idle hi =>
    refine ⟨fun os ho => absurd ho (hboot os), ?_, ?_⟩
    · cases hi <;> exact h.fresh
    · intro e t l hpc
      cases hi <;> cases hpc
  | finish located _ | overrun located _ | skip located _ | enter located _ _ _
  | enterHalt located _ _ =>
    refine ⟨fun os ho => absurd ho (hboot os), ?_, fun _ _ _ _ hv => located.precise hv⟩
    intro hv hp
    exact absurd ((located.precise hv).symm.trans hp) Bool.noConfusion
  | request | trouble | aborted =>
    refine ⟨fun os ho => absurd ho (hboot os), ?_, fun _ _ _ _ hv => h.trans _ _ _ rfl hv⟩
    intro hv hp
    exact absurd ((h.trans _ _ _ rfl hv).symm.trans hp) Bool.noConfusion

theorem step_halted {m : Machine γ} {h : Halt} (hm : halted m.pc = some h) : step w m = m := by
  obtain ⟨s, pc⟩ := m
  cases pc <;> first | rfl | cases hm

section runs

variable (w table opts mem gen)

/-- The program before its first turn. -/
def booted : Machine γ := ⟨initial table mem gen, .boot opts⟩

theorem booted_ok : Ok (view (booted table opts mem gen)) := by
  have hpos := table.nonempty
  have hlen := table.length_lt
  have hfile : (initial table mem gen).fileLst.length = table.classes.length := List.length_map _
  refine ⟨⟨?_, ?_⟩, fun _ _ => rfl⟩
  · change wrapSub table.classes.length 1 < (initial table mem gen).fileLst.length
    simp only [hfile, wrapSub]
    omega
  · change (initial table mem gen).fileLst.length < 2 ^ 31
    omega

theorem booted_settled : Settled table (view (booted table opts mem gen)) := by
  refine ⟨?_, Nat.lt_succ_self 4, .inl ⟨rfl, rfl⟩⟩
  change (table.classes.map FileClass.ofTable).map FileClass.size = _
  rw [List.map_map]
  rfl

theorem run_refines : System.Refines (step w) view (Move w) fun v => Ok v ∧ Settled table v :=
  step_refines.and fun _ _ _ => Settled.move

/-- What the moves made under `G` keep holds in a run whose moves are all made under `G`. -/
theorem run_under {I G : View → Prop} (h : I (view (booted table opts mem gen)))
    (hmove : ∀ v v', Ok v → Settled table v → I v → G v → Move w v v' → I v') (n : Nat)
    (hg : ∀ k, k < n → G (view (run w table opts mem gen k))) :
    I (view (run w table opts mem gen n)) :=
  (run_refines w table).under ⟨booted_ok table opts mem gen, booted_settled table opts mem gen⟩ h
    (fun _ _ hi => hmove _ _ hi.1 hi.2) n hg

/-- An invariant of the moves holds in every state of a run. -/
theorem run_invariant {I : View → Prop} (h : I (view (booted table opts mem gen)))
    (hmove : ∀ v v', Ok v → Settled table v → I v → Move w v v' → I v') (n : Nat) :
    I (view (run w table opts mem gen n)) :=
  run_under (G := fun _ => True) w table opts mem gen h
    (fun v v' hok hs hi _ => hmove v v' hok hs hi) n fun _ _ => trivial

theorem run_settled (n : Nat) : Settled table (view (run w table opts mem gen n)) :=
  run_invariant w table opts mem gen (booted_settled table opts mem gen)
    (fun _ _ _ hs _ => hs.move) n

theorem booted_unread : Unread table (view (booted table opts mem gen)) :=
  ⟨fun _ _ => ⟨rfl, rfl⟩, fun _ _ => ⟨rfl, rfl⟩, fun _ _ _ hpc => by cases hpc⟩

theorem run_ok (n : Nat) : Ok (view (run w table opts mem gen n)) :=
  run_invariant w table opts mem gen (booted_ok table opts mem gen) (fun _ _ hok _ _ => hok.move) n

theorem run_succ (n : Nat) :
    run w table opts mem gen (n + 1) = step w (run w table opts mem gen n) :=
  Function.iterate_succ_apply' _ _ _

theorem run_add (n k : Nat) :
    run w table opts mem gen (k + n) = (step w)^[k] (run w table opts mem gen n) :=
  Function.iterate_add_apply _ _ _ _

variable {w table opts mem gen} in
/-- Once stopped, the program stays as it is. -/
theorem run_halted {n : Nat} {h : Halt} (hn : halted (run w table opts mem gen n).pc = some h)
    {m : Nat} (hm : n ≤ m) : run w table opts mem gen m = run w table opts mem gen n := by
  obtain ⟨j, rfl⟩ := Nat.exists_eq_add_of_le' hm
  rw [run_add]
  exact Function.iterate_fixed (step_halted hn) j

theorem run_turned (n : Nat) :
    Turned w (run w table opts mem gen n).st (run w table opts mem gen n).pc
      (run w table opts mem gen (n + 1)).st (run w table opts mem gen (n + 1)).pc := by
  rw [run_succ]
  exact step_turned (run_ok w table opts mem gen n)

end runs

def inTransition : Pc → Bool
  | .trans _ _ _ => true
  | _ => false

def inHolding : Pc → Bool
  | .hold _ => true
  | _ => false

theorem inTransition_iff {pc : Pc} : inTransition pc = true ↔ ∃ e t l, pc = .trans e t l := by
  cases pc <;> simp [inTransition]

theorem inHolding_iff {pc : Pc} : inHolding pc = true ↔ ∃ l, pc = .hold l := by
  cases pc <;> simp [inHolding]

theorem whole_nsec : 0 < 1000000000 := by decide

theorem whole_usec : 0 < 1000000 := by decide

/-- A machine on which every call succeeds, every draw is zero and both clocks
are a second later at each reading. -/
def plainWorld : World Unit where
  pageSize := 4096
  srand _ g := g
  rand g := (0, g)
  rand_le _ := Nat.zero_le _
  cpu n := ⟨n, 0, whole_nsec⟩
  wall n := ⟨n, 0, whole_usec⟩
  opens _ := true
  mmap n := some (1048576 * (n + 1))
  mmap_ne_zero := by
    intro n a h
    simp only [Option.some.injEq] at h
    omega
  madvise _ := true
  malloc _ := true
  pdLen _ _ := .taken
  patience := 1

/-- Two classes, of one page and of two. -/
def smallTable : FileTable where
  classes := [(4096, ["a", "b"]), (8192, ["c", "d"])]
  nonempty := by decide
  length_lt := by decide
  size_lt := by decide

end Gobbler.Proofs
