import Gobbler.Model.Allocator
import Gobbler.Proofs.Random

namespace Gobbler.Proofs
open Effect

variable {γ : Type} {w : World γ}

/-- The bookkeeping is as before, and nothing was mapped. -/
structure Kept (s t : St γ) : Prop where
  book : t.toBook = s.toBook
  mmaps : t.mmaps = s.mmaps
  reads : s.cpuReads ≤ t.cpuReads

theorem Kept.refl (s : St γ) : Kept s s := ⟨rfl, rfl, Nat.le_refl _⟩

theorem Kept.trans {s t u : St γ} (h : Kept s t) (h' : Kept t u) : Kept s u :=
  ⟨h'.book.trans h.book, h'.mmaps.trans h.mmaps, Nat.le_trans h.reads h'.reads⟩

instance : IsPreorder (St γ) Kept where
  refl := Kept.refl
  trans _ _ _ := Kept.trans

/-- The ends a touch may come to, whatever the mapping it is given. -/
inductive TouchHalt : Halt → Prop
  | spinning : TouchHalt .spinning
  | malloc : TouchHalt (.exit "Failure to alloc fix's node:")
  | interval : TouchHalt (.exit "Interval len is zero\n")
  | divide : TouchHalt (.undefined .divisionByZero)
  | pattern : TouchHalt (.undefined .patternIndex)

theorem note_kept (c : Call) : Yields Kept TouchHalt (fun _ => True) (note c : M γ PUnit) :=
  yields_modify fun _ => ⟨rfl, rfl, Nat.le_refl _⟩

theorem divides_kept (c : Prop) [Decidable c] :
    Yields Kept TouchHalt (fun _ => True) (defined c .divisionByZero : M γ PUnit) :=
  yields_ite (fun _ => yields_pure trivial) fun _ => yields_throw .divide

theorem rand_kept : Yields Kept TouchHalt (fun _ => True) (rand w) :=
  fun _ => ⟨⟨rfl, rfl, Nat.le_refl _⟩, trivial⟩

theorem reseed_kept : Yields Kept TouchHalt (fun _ => True) (reseed w) :=
  fun _ => ⟨⟨rfl, rfl, Nat.le_succ _⟩, trivial⟩

theorem randIntrLoop_kept (limit upper randVal : Nat) :
    Yields Kept TouchHalt (fun _ => True) (randIntrLoop w limit upper randVal) := by
  induction upper generalizing randVal with
  | zero => exact yields_pure trivial
  | succ upper ih =>
    exact yields_ite (fun _ => yields_seq rand_kept fun v => ih v) fun _ => yields_pure trivial

theorem randLimLoop_kept (divisor limit : Int) (n : Nat) :
    Yields Kept TouchHalt (fun _ => True) (randLimLoop w divisor limit n) := by
  induction n with
  | zero => exact yields_throw .spinning
  | succ n ih =>
    exact yields_seq rand_kept fun _ => yields_ite (fun _ => ih) fun _ =>
      yields_pure trivial

theorem randLim_kept (limit : Int) :
    Yields Kept TouchHalt (fun _ => True) (randLim w limit) :=
  yields_seq (note_kept _) fun _ => yields_seq (divides_kept _) fun _ =>
    yields_seq (divides_kept _) fun _ => yields_seq reseed_kept fun _ =>
      randLimLoop_kept _ _ _

theorem randIntr_kept (first last : Nat) :
    Yields Kept TouchHalt (fun _ => True) (randIntr w first last) :=
  yields_seq (note_kept _) fun _ => yields_seq (divides_kept _) fun _ =>
    yields_seq reseed_kept fun _ => yields_seq rand_kept fun _ =>
      yields_seq (randIntrLoop_kept _ _ _) fun _ => yields_pure trivial

theorem store_kept (a : Nat) (v : UInt8) :
    Yields Kept TouchHalt (fun _ => True) (store a v : M γ PUnit) :=
  yields_modify fun _ => ⟨rfl, rfl, Nat.le_refl _⟩

theorem touchSimple_kept (a : Nat) :
    Yields Kept TouchHalt (fun _ => True) (touchSimple a : M γ PUnit) :=
  yields_seq yields_get fun _ => yields_ite (fun _ => store_kept _ _) fun _ => store_kept _ _

theorem patternSeq_kept (addr len : Nat) :
    Yields Kept TouchHalt (fun _ => True) (patternSeq addr len : M γ PUnit) :=
  yields_upTo fun _ _ => touchSimple_kept _

theorem fixRandLoc_kept (addr len : Nat) :
    Yields Kept TouchHalt (fun _ => True) (fixRandLoc w addr len) :=
  yields_seq (randIntr_kept _ _) fun _ => yields_seq (yields_modify fun _ => ⟨rfl, rfl, Nat.le_refl _⟩) fun _ =>
    store_kept _ _

theorem fixAllocNode_kept (addr : Nat) :
    Yields Kept TouchHalt (fun _ => True) (fixAllocNode w addr) := by
  intro s
  unfold fixAllocNode
  simp only [ends_bind, ends_get]
  rw [ends_ite]
  exact ⟨fun _ => ⟨⟨rfl, rfl, Nat.le_refl _⟩, trivial⟩, fun _ => ⟨Kept.refl s, trivial⟩⟩

theorem patternFix_kept (addr len : Nat) :
    Yields Kept TouchHalt (fun _ => True) (patternFix w addr len) := by
  refine yields_ite (fun _ => yields_pure trivial) fun _ => yields_seq yields_get fun s => ?_
  split
  · exact touchSimple_kept _
  · refine yields_seq (fixAllocNode_kept addr) fun got => ?_
    exact yields_ite (fun _ => fixRandLoc_kept _ _) fun _ => yields_throw .malloc

theorem strideLoop_kept (len n piece : Nat) :
    Yields Kept TouchHalt (fun _ => True) (strideLoop len n piece : M γ Nat) := by
  induction n generalizing piece with
  | zero => exact yields_throw .spinning
  | succ n ih =>
    exact yields_seq (divides_kept _) fun _ => yields_ite (fun _ => ih _) fun _ =>
      yields_pure trivial

theorem strideGetOffset_kept (len : Nat) :
    Yields Kept TouchHalt (fun _ => True) (strideGetOffset len : M γ Nat) :=
  yields_seq (note_kept _) fun _ => strideLoop_kept _ _ _

theorem patternStrideLoop_kept (addr len stride n i : Nat) :
    Yields Kept TouchHalt (fun _ => True) (patternStrideLoop addr len stride n i : M γ PUnit) := by
  induction n generalizing i with
  | zero => exact yields_throw .spinning
  | succ n ih =>
    exact yields_ite (fun _ => yields_seq (touchSimple_kept _) fun _ => ih _) fun _ =>
      yields_pure trivial

theorem patternStride_kept (addr len : Nat) :
    Yields Kept TouchHalt (fun _ => True) (patternStride addr len : M γ PUnit) :=
  yields_seq (strideGetOffset_kept _) fun _ => patternStrideLoop_kept _ _ _ _ _

theorem patternRepeat_kept (addr len : Nat) :
    Yields Kept TouchHalt (fun _ => True) (patternRepeat addr len : M γ PUnit) :=
  yields_seq (strideGetOffset_kept _) fun _ =>
    yields_times (yields_upTo fun _ _ => touchSimple_kept _) _

theorem randomTouchPage_kept (addr len : Nat) :
    Yields Kept TouchHalt (fun _ => True) (randomTouchPage w addr len) :=
  yields_seq yields_get fun _ =>
    yields_times (yields_seq (randLim_kept _) fun _ => patternSeq_kept _ _) _

theorem randomTouchLoop_kept (addr first last pages n i : Nat) :
    Yields Kept TouchHalt (fun _ => True) (randomTouchLoop w addr first last pages n i) := by
  induction n generalizing i with
  | zero => exact yields_pure trivial
  | succ n ih =>
    exact yields_ite (fun _ => yields_pure trivial) fun _ =>
      yields_seq (randomTouchPage_kept _ _) fun _ => ih _

theorem randomTouch_kept (addr first last : Nat) :
    Yields Kept TouchHalt (fun _ => True) (randomTouch w addr first last) :=
  yields_ite (fun _ => yields_throw .interval) fun _ => randomTouchLoop_kept _ _ _ _ _ _

theorem randomTouchNLoop_kept (addr len switcher n : Nat) (whichSlice : Bool) :
    Yields Kept TouchHalt (fun _ => True) (randomTouchNLoop w addr len switcher n whichSlice) := by
  induction n generalizing whichSlice with
  | zero => exact yields_pure trivial
  | succ n ih => exact yields_seq (randomTouch_kept _ _ _) fun _ => ih _

/-- No access pattern changes the bookkeeping. -/
theorem pattern_kept (k addr len : Nat) :
    Yields Kept TouchHalt (fun _ => True) (pattern w k addr len) := by
  match k with
  | 0 => exact patternFix_kept _ _
  | 1 => exact patternStride_kept _ _
  | 2 => exact patternSeq_kept _ _
  | 3 => exact patternRepeat_kept _ _
  | 4 => exact yields_seq yields_get fun _ => randomTouchNLoop_kept _ _ _ _ _
  | _ + 5 => exact yields_throw .pattern

end Gobbler.Proofs
