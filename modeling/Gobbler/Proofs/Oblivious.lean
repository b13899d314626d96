import Gobbler.Lib.Ignore
import Gobbler.Proofs.Runs

namespace Gobbler.Proofs
open Effect

variable {γ : Type} {w : World γ}

/-- The state with another memory, another access type and another count of mappings. -/
def replaced (c : Memory × Nat × Nat) (s : St γ) : St γ :=
  { s with toMemory := c.1, accessType := c.2.1, mmaps := c.2.2 }

/-- None of the three is read or changed. -/
abbrev Aloof {α : Type} (m : M γ α) : Prop := Ignores replaced m

/-- The state with another memory and another access type. -/
def rewritten (c : Memory × Nat) (s : St γ) : St γ :=
  { s with toMemory := c.1, accessType := c.2 }

/-- Neither the memory nor the access type is read or changed. -/
abbrev Oblivious {α : Type} (m : M γ α) : Prop := Ignores rewritten m

/-- The state with another memory and another count of mappings. -/
def remapped (c : Memory × Nat) (s : St γ) : St γ := { s with toMemory := c.1, mmaps := c.2 }

/-- Neither the memory nor the count of mappings is read or changed. -/
abbrev Unmapping {α : Type} (m : M γ α) : Prop := Ignores remapped m

theorem Aloof.oblivious {α : Type} {m : M γ α} (h : Aloof m) : Oblivious m :=
  h.less (fun s : St γ => (s.toMemory, s.accessType, s.mmaps)) (fun _ _ => rfl) (fun _ => rfl)
    (fun c old => (c.1, c.2, old.2.2)) fun _ _ => rfl

theorem Aloof.unmapping {α : Type} {m : M γ α} (h : Aloof m) : Unmapping m :=
  h.less (fun s : St γ => (s.toMemory, s.accessType, s.mmaps)) (fun _ _ => rfl) (fun _ => rfl)
    (fun c old => (c.1, old.2.1, c.2)) fun _ _ => rfl

theorem Unmapping.mmaps {α : Type} {m : M γ α} (h : Unmapping m) (s : St γ) :
    Ends m s (fun _ t => t.mmaps = s.mmaps) fun _ t => t.mmaps = s.mmaps := by
  have hkeep := Ignores.keeps (fun s : St γ => (s.toMemory, s.mmaps)) (fun _ _ => rfl) (fun _ => rfl) h s
  exact hkeep.mono (fun _ _ hq => congrArg Prod.snd hq) fun _ _ hq => congrArg Prod.snd hq

theorem note_aloof (c : Call) : Aloof (note c : M γ PUnit) := fun _ _ => rfl

theorem defined_aloof (c : Prop) [Decidable c] (what : Undefined) :
    Aloof (defined c what : M γ PUnit) :=
  ignores_ite (ignores_pure _) (ignores_throw _)

theorem wctime_aloof (t : Granularity) : Aloof (wctime w t) := fun _ _ => rfl

theorem cputime_aloof (t : Granularity) : Aloof (cputime w t) := fun _ _ => rfl

theorem rand_aloof : Aloof (rand w) := fun _ _ => rfl

theorem reseed_aloof : Aloof (reseed w) := fun _ _ => rfl

theorem randLimLoop_aloof (divisor limit : Int) (n : Nat) :
    Aloof (randLimLoop w divisor limit n) := by
  induction n with
  | zero => exact ignores_throw _
  | succ n ih => exact ignores_bind rand_aloof fun _ => ignores_ite ih (ignores_pure _)

theorem randLim_aloof (limit : Int) : Aloof (randLim w limit) :=
  ignores_bind (note_aloof _) fun _ => ignores_bind (defined_aloof _ _) fun _ =>
    ignores_bind (defined_aloof _ _) fun _ => ignores_bind reseed_aloof fun _ =>
      randLimLoop_aloof _ _ _

theorem randIntrLoop_aloof (limit upper randVal : Nat) :
    Aloof (randIntrLoop w limit upper randVal) := by
  induction upper generalizing randVal with
  | zero => exact ignores_pure _
  | succ upper ih =>
    exact ignores_ite (ignores_bind rand_aloof fun v => ih v) (ignores_pure _)

theorem randIntr_aloof (first last : Nat) : Aloof (randIntr w first last) :=
  ignores_bind (note_aloof _) fun _ => ignores_bind (defined_aloof _ _) fun _ =>
    ignores_bind reseed_aloof fun _ => ignores_bind rand_aloof fun _ =>
      ignores_bind (randIntrLoop_aloof _ _ _) fun _ => ignores_pure _

theorem strideLoop_aloof (len n piece : Nat) :
    Aloof (strideLoop len n piece : M γ Nat) := by
  induction n generalizing piece with
  | zero => exact ignores_throw _
  | succ n ih =>
    exact ignores_bind (defined_aloof _ _) fun _ => ignores_ite (ih _) (ignores_pure _)

theorem strideGetOffset_aloof (len : Nat) : Aloof (strideGetOffset len : M γ Nat) :=
  ignores_bind (note_aloof _) fun _ => strideLoop_aloof _ _ _

theorem getFilePath_aloof (len : Nat) :
    Aloof (getFilePath len : M γ (Option (Nat × Nat) × Nat)) := fun _ _ => rfl

theorem goToNxtPhase_aloof : Aloof (goToNxtPhase : M γ PUnit) :=
  ignores_get_ite (fun _ _ => Iff.rfl) (fun _ _ => rfl) fun _ _ => rfl

theorem currTrack_aloof : Aloof (currTrack : M γ (List AllocRec)) :=
  ignores_get (fun _ _ => rfl) fun _ => ignores_bind (defined_aloof _ _) fun _ => ignores_pure _

theorem addNewAlloc_aloof (address len : Nat) (type : MemType) :
    Aloof (addNewAlloc address len type : M γ Int) :=
  ignores_bind currTrack_aloof fun _ => ignores_ite (ignores_pure _)
    (ignores_bind (ignores_modify fun _ _ => rfl) fun _ => ignores_pure _)

theorem typeCntSucc_aloof : Aloof (typeCntSucc : M γ PUnit) :=
  ignores_get_bind (fun _ _ => rfl) (fun _ => defined_aloof _ _) fun _ _ _ _ => rfl

theorem randomizeAllocType_aloof (anonSlice : Int) :
    Aloof (randomizeAllocType w anonSlice) := by
  refine ignores_get (fun _ _ => rfl) fun s => ?_
  have hcnt : ∀ type, Aloof (do typeCntSucc; return type : M γ MemType) :=
    fun type => ignores_bind typeCntSucc_aloof fun _ => ignores_pure type
  by_cases h : anonSlice < 0
  · rw [if_pos h]
    exact hcnt _
  · rw [if_neg h]
    exact ignores_ite (ignores_bind (randLim_aloof _) fun _ => hcnt _) (hcnt _)

theorem fileSize_aloof (i : Nat) : Aloof (fileSize i : M γ Nat) := by
  refine ignores_bind (note_aloof _) fun _ => ignores_get (fun _ _ => rfl) fun s => ?_
  split
  · exact ignores_pure _
  · exact ignores_throw _

theorem randomizeAllocLenLoop_aloof (maxReq l i : Nat) :
    Aloof (randomizeAllocLenLoop w maxReq l i) := by
  induction l generalizing i with
  | zero => exact ignores_pure _
  | succ l ih =>
    exact ignores_get (fun _ _ => rfl) fun _ => ignores_bind (randIntr_aloof _ _) fun i =>
      ignores_bind (fileSize_aloof i) fun _ => ignores_ite (ih i) (ignores_pure _)

theorem randomizeAllocLen_aloof : Aloof (randomizeAllocLen w) :=
  ignores_get (fun _ _ => rfl) fun _ => ignores_bind (fileSize_aloof 0) fun _ =>
    ignores_ite (ignores_pure _)
      (ignores_bind (randomizeAllocLenLoop_aloof _ _ _) fun i => fileSize_aloof i)

theorem randomizeAllocCount_aloof (precision : Bool) :
    Aloof (randomizeAllocCount w precision) :=
  ignores_get (fun _ _ => rfl) fun _ => ignores_ite (ignores_pure _) (randIntr_aloof _ _)

theorem countPages_aloof (type : MemType) (pageCnt : Nat) :
    Aloof (countPages type pageCnt : M γ PUnit) := ignores_modify fun _ _ => rfl

theorem settle_aloof (node : Option (Nat × Nat)) (allocSuc : Int) :
    Aloof (settle node allocSuc : M γ PUnit) := by
  cases node with
  | none => exact ignores_ite (ignores_throw _) (ignores_pure _)
  | some node =>
    exact ignores_ite (ignores_modify fun _ _ => rfl) (ignores_ite (ignores_throw _) (ignores_pure _))

theorem transRandAllocEnter_aloof : Aloof (transRandAllocEnter w) :=
  ignores_bind (randLim_aloof _) fun _ => ignores_bind goToNxtPhase_aloof fun _ =>
    ignores_get (fun _ _ => rfl) fun _ => ignores_bind (randomizeAllocCount_aloof _) fun _ =>
      ignores_bind (ignores_modify fun _ _ => rfl) fun _ => ignores_pure _

theorem token_aloof (t : Option (List Char)) : Aloof (token t : M γ (List Char)) := by
  cases t with
  | none => exact ignores_throw _
  | some t => exact ignores_pure _

theorem getNxtAlloc_aloof (isIpfvt : Bool) :
    Aloof (getNxtAlloc isIpfvt : M γ (Option (Nat × ℚ))) := by
  have hlast : ∀ (t : Option (List Char)) (allocCnt : Nat),
      Aloof (γ := γ) (token t >>= fun t => return some (allocCnt, atof t)) :=
    fun t _ => ignores_bind (token_aloof t) fun _ => ignores_pure _
  have hfirst : ∀ t saved : Option (List Char), Aloof (γ := γ) (token t >>= fun t =>
      token saved >>= fun saved => return some (ofLong (atol t), atof saved)) :=
    fun t saved => ignores_bind (token_aloof t) fun _ => hlast saved _
  apply ignores_get_at
  intro c s
  have hv : (replaced c s).vectorStream = s.vectorStream := rfl
  rw [hv]
  cases getline s.vectorStream with
  | none => rfl
  | some got =>
    cases isIpfvt with
    | true => exact hlast _ 1 c { s with vectorStream := got.2 }
    | false => exact hfirst _ _ c { s with vectorStream := got.2 }

theorem resetMaxAllocPerPhase_aloof (allocCnt : Nat) :
    Aloof (resetMaxAllocPerPhase allocCnt : M γ PUnit) := ignores_modify fun _ _ => rfl

theorem nextLocality_aloof : Aloof (nextLocality : M γ Bool) := by
  refine ignores_get (fun _ _ => rfl) fun s => ignores_ite ?_ (ignores_pure _)
  refine ignores_bind (getNxtAlloc_aloof _) fun got => ?_
  cases got with
  | none => exact ignores_pure _
  | some line =>
    exact ignores_bind (ignores_modify fun _ _ => rfl) fun _ =>
      ignores_bind (resetMaxAllocPerPhase_aloof _) fun _ => ignores_pure _

theorem report_aloof : Aloof (report w) :=
  ignores_get (fun _ _ => rfl) fun _ => ignores_ite (ignores_bind (wctime_aloof _) fun _ =>
    ignores_modify fun _ _ => rfl) (ignores_pure _)

theorem loopForEnter_aloof (execTime : ℚ) (t : Granularity) :
    Aloof (loopForEnter w execTime t) :=
  ignores_bind (cputime_aloof t) fun _ => ignores_bind currTrack_aloof fun _ => ignores_pure _

theorem jobHold_aloof (execTime : ℚ) (t : Granularity) : Aloof (jobHold w execTime t) :=
  ignores_bind currTrack_aloof fun _ =>
    ignores_bind (loopForEnter_aloof execTime t) fun _ => ignores_pure _

theorem job_aloof (execTime : ℚ) (t : Granularity) : Aloof (job w execTime t) := by
  refine ignores_bind (ignores_modify fun _ _ => rfl) fun _ => ?_
  refine ignores_bind (wctime_aloof t) fun _ => ignores_bind (wctime_aloof t) fun _ => ?_
  apply ignores_ite
  · exact ignores_bind (wctime_aloof t) fun _ =>
      ignores_bind (ignores_modify fun _ _ => rfl) fun _ => ignores_pure _
  · refine ignores_get (fun _ _ => rfl) fun s => ignores_ite (jobHold_aloof _ _) ?_
    exact ignores_bind transRandAllocEnter_aloof fun _ => ignores_pure _

theorem curJobSucc_aloof : Aloof (curJobSucc : M γ PUnit) :=
  ignores_get_bind (fun _ _ => rfl) (fun _ => defined_aloof _ _) fun _ _ _ _ => rfl

theorem limits_aloof : Aloof (limits w) :=
  ignores_bind (ignores_modify fun _ _ => rfl) fun _ => ignores_bind curJobSucc_aloof fun _ =>
    ignores_get (fun _ _ => rfl) fun _ => ignores_ite (ignores_pure _) (job_aloof _ _)

theorem mainPass_aloof : Aloof (mainPass w) :=
  ignores_bind nextLocality_aloof fun _ =>
    ignores_ite (ignores_bind report_aloof fun _ => limits_aloof) (ignores_pure _)

theorem loopOnce_aloof (last : ℚ) : Aloof (loopOnce last : M γ Int) :=
  ignores_ite (ignores_pure _) fun _ _ => rfl

theorem option_unmapping (o : Opt) : Unmapping (option o : M γ PUnit) := by
  cases o with
  | t n => exact ignores_ite (ignores_throw _) (ignores_modify fun _ _ => rfl)
  | V bytes =>
    cases bytes with
    | none => exact ignores_throw _
    | some bytes => exact ignores_modify fun _ _ => rfl
  | h => exact ignores_throw _
  | _ => exact ignores_modify fun _ _ => rfl

theorem options_unmapping (opts : List Opt) : Unmapping (options opts : M γ PUnit) := by
  induction opts with
  | nil => exact ignores_pure _
  | cons o os ih => exact ignores_bind (option_unmapping o) fun _ => ih

theorem writeStmaLtma_aloof (stma ltma : Nat) : Aloof (writeStmaLtma w stma ltma) := by
  unfold writeStmaLtma
  cases w.pdLen stma ltma with
  | taken => exact ignores_pure _
  | _ => exact ignores_throw _

theorem resetStmaLtma_aloof (stma ltma : Nat) : Aloof (resetStmaLtma w stma ltma) :=
  ignores_ite (ignores_throw _) (ignores_ite (writeStmaLtma_aloof _ _) (ignores_throw _))

theorem allocTrackInit_aloof : Aloof (allocTrackInit w) :=
  ignores_ite (ignores_modify fun _ _ => rfl) (ignores_throw _)

theorem mainEnter_unmapping (opts : List Opt) : Unmapping (mainEnter w opts) := by
  refine ignores_bind (options_unmapping opts) fun _ => ignores_get (fun _ _ => rfl) fun s => ?_
  refine ignores_bind (ignores_modify fun _ _ => rfl) fun _ => ?_
  refine ignores_bind (wctime_aloof _).unmapping fun _ => ?_
  refine ignores_bind (ignores_modify fun _ _ => rfl) fun _ => ?_
  refine ignores_bind allocTrackInit_aloof.unmapping fun _ => ignores_ite ?_ (ignores_pure _)
  exact ignores_bind (resetStmaLtma_aloof _ _).unmapping fun _ => ignores_pure _

theorem mmapper_oblivious (type : MemType) : Oblivious (mmapper w type) := by
  have hopened : ∀ (n : Nat) {m : M γ Nat}, Oblivious m →
      Oblivious (if type = .file ∧ w.opens n = false then (do throw (.exit "Failed path: "); m) else m) :=
    fun _ _ hm => ignores_ite (ignores_bind (ignores_throw _) fun _ => hm) hm
  apply ignores_get_at
  intro c s
  have hv : (rewritten c s).mmaps = s.mmaps := rfl
  rw [hv]
  cases w.mmap s.mmaps with
  | none => exact hopened s.mmaps (ignores_throw (.exit "mmap")) c { s with mmaps := s.mmaps + 1 }
  | some map =>
    have hdone : Oblivious (γ := γ) (if w.madvise s.mmaps then return map else throw (.exit "madvise")) :=
      ignores_ite (ignores_pure _) (ignores_throw _)
    exact hopened s.mmaps hdone c { s with mmaps := s.mmaps + 1 }

theorem alloc_oblivious (type : MemType) (len : Nat) : Oblivious (alloc w type len) := by
  have hrest : ∀ (node : Option (Nat × Nat)) (len : Nat), Oblivious (γ := γ) (do
      if type ≠ .anon ∧ node = none then return (0, len, none)
      else
        let s ← get
        let len := clip s.maxAllocPerPhaseByte len
        let map ← mmapper w type
        return (map, len, node)) := by
    intro node len
    refine ignores_ite (ignores_pure _) (ignores_get (fun _ _ => rfl) fun s => ?_)
    exact ignores_bind (mmapper_oblivious type) fun _ => ignores_pure _
  unfold alloc
  by_cases ht : type = .anon
  · rw [if_pos ht]
    by_cases hl : len = 0
    · rw [if_pos hl]
      exact ignores_bind ((fileSize_aloof 0).oblivious) fun _ => hrest _ _
    · rw [if_neg hl]
      exact hrest _ _
  · rw [if_neg ht]
    exact ignores_bind ((getFilePath_aloof len).oblivious) fun found => hrest found.1 found.2

theorem randomAllocatorOne_oblivious (anonSlice : Int) (cnt : Nat) :
    Oblivious (randomAllocatorOne w anonSlice cnt) := by
  refine ignores_bind (randomizeAllocType_aloof _).oblivious fun allocType => ?_
  refine ignores_bind randomizeAllocLen_aloof.oblivious fun _ => ?_
  refine ignores_bind (alloc_oblivious _ _) fun found => ?_
  apply ignores_ite
  · exact ignores_bind (ignores_modify fun _ _ => rfl) fun _ => ignores_pure _
  · refine ignores_bind (addNewAlloc_aloof _ _ _).oblivious fun _ => ?_
    refine ignores_bind (countPages_aloof _ _).oblivious fun _ => ?_
    refine ignores_bind (settle_aloof _ _).oblivious fun _ => ?_
    exact ignores_get (fun _ _ => rfl) fun _ => ignores_ite (ignores_pure _) (ignores_pure _)

end Gobbler.Proofs
