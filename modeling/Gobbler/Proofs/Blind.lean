import Gobbler.Proofs.Contents

namespace Gobbler.Proofs
open Effect

variable {γ : Type} {w : World γ} {same : Set Nat}

def refilled (c : Memory) (s : St γ) : St γ := { s with toMemory := c }

theorem Oblivious.refilled {α : Type} {m : M γ α} (h : Oblivious m) :
    Ignores Proofs.refilled m :=
  h.less (fun s : St γ => (s.toMemory, s.accessType)) (fun _ _ => rfl) (fun _ => rfl)
    (fun c old => (c, old.2)) fun _ _ => rfl

theorem Unmapping.refilled {α : Type} {m : M γ α} (h : Unmapping m) :
    Ignores Proofs.refilled m :=
  h.less (fun s : St γ => (s.toMemory, s.mmaps)) (fun _ _ => rfl) (fun _ => rfl)
    (fun c old => (c, old.2)) fun _ _ => rfl

/-- Two memories that saw the same writes and agree on the bytes of `same`. -/
structure Agree (same : Set Nat) (m c : Memory) : Prop where
  fixHead : c.fixHead = m.fixHead
  writes : c.writes = m.writes
  mem : ∀ a ∈ same, c.mem a = m.mem a

/-- Two states that are alike but for the bytes outside `same`. -/
def Beside (same : Set Nat) (s t : St γ) : Prop := ∃ c, t = refilled c s ∧ Agree same s.toMemory c

/-- The two runs of `m` go on in step. -/
abbrev Blind (same : Set Nat) {α : Type} (m : M γ α) : Prop := Couples (Beside same) Eq m m

theorem blind_of_ignores {α : Type} {m : M γ α} (h : Ignores refilled m) : Blind same m :=
  h.couples (fun s : St γ => s.toMemory) (fun _ _ => rfl) (fun _ => rfl) (Agree same)

theorem Oblivious.blind {α : Type} {m : M γ α} (h : Oblivious m) : Blind same m :=
  blind_of_ignores h.refilled

/-- The value written depends on the byte, but not whether it is written. -/
theorem touchSimple_blind (a : Nat) : Blind same (touchSimple a : M γ PUnit) := by
  rintro s _ ⟨c, rfl, hc⟩
  unfold Both Ends
  rw [touchSimple_stores, touchSimple_stores]
  refine ⟨rfl, _, rfl, hc.fixHead, ?_, ?_⟩
  · exact congrArg ((s.curr, a) :: ·) hc.writes
  · intro b hb
    by_cases hab : b = a
    · subst hab
      have heq : c.mem b = s.mem b := hc.mem b hb
      simp [refilled, heq]
    · have heq : c.mem b = s.mem b := hc.mem b hb
      simp [refilled, Function.update_of_ne hab, heq]

theorem blind_modify {f : St γ → St γ} (h : ∀ s t, Beside same s t → Beside same (f s) (f t)) :
    Blind same (modify f : M γ PUnit) :=
  fun s t hst => ⟨rfl, h s t hst⟩

theorem fixAllocNode_blind (addr : Nat) : Blind same (fixAllocNode w addr) := by
  rintro s _ ⟨c, rfl, hc⟩
  have hlen : c.fixHead.length = s.fixHead.length := congrArg List.length hc.fixHead
  unfold fixAllocNode Both
  simp only [ends_bind, ends_get]
  by_cases h : w.malloc (s.fixHead.length + 1) = true
  · simp only [refilled, hlen, if_pos h, ends_bind, ends_set, ends_pure]
    exact ⟨trivial, { c with fixHead := ⟨addr, 0⟩ :: c.fixHead }, rfl,
      congrArg (⟨addr, 0⟩ :: ·) hc.fixHead, hc.writes, hc.mem⟩
  · simp only [refilled, hlen, if_neg h, ends_pure]
    exact ⟨trivial, c, rfl, hc⟩

theorem store_blind (a : Nat) (v : UInt8) : Blind same (store a v : M γ PUnit) := by
  apply blind_modify
  rintro s _ ⟨c, rfl, hc⟩
  refine ⟨_, rfl, hc.fixHead, congrArg ((s.curr, a) :: ·) hc.writes, fun b hb => ?_⟩
  by_cases hab : b = a
  · subst hab
    simp [refilled]
  · have heq : c.mem b = s.mem b := hc.mem b hb
    simp [refilled, Function.update_of_ne hab, heq]

theorem fixRandLoc_blind (addr len : Nat) : Blind same (fixRandLoc w addr len) := by
  refine couples_seq (randIntr_aloof _ _).oblivious.blind fun loc => ?_
  refine couples_seq (blind_modify ?_) fun _ => store_blind _ _
  rintro s _ ⟨c, rfl, hc⟩
  exact ⟨_, rfl, congrArg (fun head => _ :: head.tail) hc.fixHead, hc.writes, hc.mem⟩

theorem patternFix_blind (addr len : Nat) : Blind same (patternFix w addr len) := by
  refine couples_ite Iff.rfl (fun _ => couples_pure rfl) fun _ => couples_bind couples_get ?_
  rintro s _ ⟨c, rfl, hc⟩
  have hfind : fixExists c.fixHead addr = fixExists s.fixHead addr := by rw [hc.fixHead]
  simp only [refilled, hfind]
  cases fixExists s.fixHead addr with
  | some node => exact touchSimple_blind _
  | none =>
    exact couples_seq (fixAllocNode_blind addr) fun _ =>
      couples_ite Iff.rfl (fun _ => fixRandLoc_blind addr len) fun _ => couples_throw _

theorem patternSeq_blind (addr len : Nat) : Blind same (patternSeq addr len : M γ PUnit) :=
  couples_upTo (fun _ => touchSimple_blind _) len

theorem patternStrideLoop_blind (addr len stride n i : Nat) :
    Blind same (patternStrideLoop addr len stride n i : M γ PUnit) := by
  induction n generalizing i with
  | zero => exact couples_throw _
  | succ n ih =>
    exact couples_ite Iff.rfl (fun _ => couples_seq (touchSimple_blind _) fun _ => ih _) fun _ =>
      couples_pure rfl

theorem Beside.inTransition {s t : St γ} (h : Beside same s t) : t.inTransition = s.inTransition := by
  obtain ⟨c, rfl, _⟩ := h
  rfl

theorem randomTouchPage_blind (addr len : Nat) : Blind same (randomTouchPage w addr len) := by
  refine couples_bind couples_get fun s t hst => ?_
  rw [hst.inTransition]
  exact couples_times (couples_seq (randLim_aloof _).oblivious.blind fun _ => patternSeq_blind _ _) _

theorem randomTouchLoop_blind (addr first last pages n i : Nat) :
    Blind same (randomTouchLoop w addr first last pages n i) := by
  induction n generalizing i with
  | zero => exact couples_pure rfl
  | succ n ih =>
    exact couples_ite Iff.rfl (fun _ => couples_pure rfl) fun _ =>
      couples_seq (randomTouchPage_blind _ _) fun _ => ih _

theorem randomTouchNLoop_blind (addr len switcher n : Nat) (whichSlice : Bool) :
    Blind same (randomTouchNLoop w addr len switcher n whichSlice) := by
  induction n generalizing whichSlice with
  | zero => exact couples_pure rfl
  | succ n ih =>
    refine couples_seq (couples_ite Iff.rfl (fun _ => couples_throw _) fun _ => ?_) fun _ => ih _
    exact randomTouchLoop_blind _ _ _ _ _ _

theorem pattern_blind (k addr len : Nat) : Blind same (pattern w k addr len) := by
  match k with
  | 0 => exact patternFix_blind addr len
  | 1 =>
    exact couples_seq (strideGetOffset_aloof len).oblivious.blind fun _ => patternStrideLoop_blind _ _ _ _ _
  | 2 => exact patternSeq_blind addr len
  | 3 =>
    exact couples_seq (strideGetOffset_aloof len).oblivious.blind fun _ =>
      couples_times (patternSeq_blind _ _) _
  | 4 =>
    refine couples_bind couples_get fun s t hst => ?_
    rw [hst.inTransition]
    exact randomTouchNLoop_blind _ _ _ _ _
  | _ + 5 => exact couples_throw _

theorem touch_blind (i : Nat) : Blind same (touch w i) := by
  refine couples_bind couples_get ?_
  rintro s _ ⟨c, rfl, hc⟩
  refine couples_ite Iff.rfl (fun _ => ?_) fun _ => couples_pure rfl
  refine couples_seq currTrack_aloof.oblivious.blind fun lst => ?_
  cases lst[i]? with
  | none => exact couples_pure rfl
  | some r => exact pattern_blind _ _ _

theorem loopN_blind (n : Nat) : Blind same (loopN w n) :=
  couples_times (couples_seq currTrack_aloof.oblivious.blind fun _ => touch_blind _) n

theorem turn_blind (pc : Pc) : Blind same (turn w pc) := by
  cases pc with
  | boot opts => exact blind_of_ignores (mainEnter_unmapping opts).refilled
  | main => exact mainPass_aloof.oblivious.blind
  | trans execTime t l =>
    apply couples_ite Iff.rfl
    · intro _
      refine couples_seq ?_ fun _ => couples_pure rfl
      refine couples_seq (randomAllocatorOne_oblivious _ _).blind fun _ => ?_
      exact couples_ite Iff.rfl (fun _ => couples_pure rfl) fun _ =>
        couples_seq (loopN_blind _) fun _ => couples_pure rfl
    · intro _
      refine couples_seq (blind_of_ignores (ignores_modify fun _ _ => rfl)) fun _ => ?_
      exact (jobHold_aloof execTime t).oblivious.blind
  | hold l =>
    apply couples_ite Iff.rfl
    · intro _
      refine couples_seq ?_ fun _ => couples_pure rfl
      refine couples_seq ?_ fun _ => couples_seq (loopOnce_aloof _).oblivious.blind fun _ =>
        couples_seq (cputime_aloof _).oblivious.blind fun _ => couples_pure rfl
      exact couples_ite Iff.rfl (fun _ => couples_seq (touch_blind _) fun _ => couples_pure rfl)
        fun _ => couples_seq currTrack_aloof.oblivious.blind fun _ => couples_pure rfl
    · intro _
      exact couples_seq (blind_of_ignores (ignores_modify fun _ _ => rfl)) fun _ => couples_pure rfl
  | stopped h => exact couples_pure rfl

/-- Two programs at the same place, their states alike but for the bytes outside `same`. -/
structure Abreast (same : Set Nat) (m m' : Machine γ) : Prop where
  pc : m'.pc = m.pc
  st : Beside same m.st m'.st

theorem Abreast.step {m m' : Machine γ} (h : Abreast same m m') :
    Abreast same (step w m) (step w m') := by
  obtain ⟨s, pc⟩ := m
  obtain ⟨t, pc'⟩ := m'
  obtain ⟨rfl, hst⟩ := h
  have hturn := turn_blind (w := w) pc' s t hst
  unfold Both Ends at hturn
  unfold Gobbler.step
  cases hs : turn w pc' s with
  | ok a u =>
    cases ht : turn w pc' t with
    | ok b v =>
      simp only [hs, ht] at hturn
      exact ⟨hturn.1.symm, hturn.2⟩
    | error e v => simp only [hs, ht] at hturn
  | error e u =>
    cases ht : turn w pc' t with
    | ok b v => simp only [hs, ht] at hturn
    | error e' v =>
      simp only [hs, ht] at hturn
      exact ⟨congrArg Pc.stopped hturn.1, hturn.2⟩

/-- What the memory holds when the program starts decides nothing: the program
takes the same way, with the same books, draws and writes, and the bytes that
were alike at the start are alike ever after. -/
theorem contents_decide_nothing (w : World γ) (table : FileTable) (opts : List Opt)
    (mem mem' : Nat → UInt8) (gen : γ) (n : Nat) :
    let m := run w table opts mem gen n
    let m' := run w table opts mem' gen n
    m'.pc = m.pc ∧ ∃ bytes : Nat → UInt8, m'.st = { m.st with mem := bytes } ∧
      ∀ a, mem' a = mem a → bytes a = m.st.mem a := by
  intro m m'
  have habreast : Abreast { a | mem' a = mem a } m m' := by
    induction n with
    | zero => exact ⟨rfl, (initial table mem' gen).toMemory, rfl, rfl, rfl, fun _ ha => ha⟩
    | succ n ih =>
      simp only [m, m', run_succ]
      exact ih.step
  obtain ⟨hpc, ⟨bytes, _, _⟩, hst, rfl, rfl, hmem⟩ := habreast
  exact ⟨hpc, bytes, hst, fun a ha => hmem a ha⟩

end Gobbler.Proofs
