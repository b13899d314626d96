import Gobbler.Proofs.Fix
import Gobbler.Proofs.Oblivious

namespace Gobbler.Proofs
open Effect

variable {γ : Type} {w : World γ}

/-- Neither the memory nor the access type changed. -/
structure Unwritten (s t : St γ) : Prop where
  memory : t.toMemory = s.toMemory
  access : t.accessType = s.accessType

theorem Oblivious.unwritten {α : Type} {m : M γ α} (h : Oblivious m) (s : St γ) :
    Ends m s (fun _ t => Unwritten s t) fun _ t => Unwritten s t := by
  have hkeep := Ignores.keeps (fun s : St γ => (s.toMemory, s.accessType))
    (fun _ _ => rfl) (fun _ => rfl) h s
  exact hkeep.mono (fun _ _ hq => ⟨congrArg Prod.fst hq, congrArg Prod.snd hq⟩)
    fun _ _ hq => ⟨congrArg Prod.fst hq, congrArg Prod.snd hq⟩

section turns

variable {R : St γ → St γ → Prop}

theorem Oblivious.yields {α : Type} {m : M γ α} (h : Oblivious m)
    (hstill : ∀ s t, Unwritten s t → R s t) :
    Yields R (fun _ => True) (fun _ => True) m := by
  intro s
  exact (h.unwritten s).mono (fun _ t hq => ⟨hstill s t hq, trivial⟩)
    fun _ t hq => ⟨hstill s t hq, trivial⟩

variable [IsPreorder (St γ) R]

/-- An access pattern other than the fix pattern is made of calls of `touch_simple`. -/
theorem pattern_yields (hstill : ∀ s t, Unwritten s t → R s t)
    (hsimple : ∀ a, Yields R (fun _ => True) (fun _ => True) (touchSimple a : M γ PUnit))
    {k : Nat} (hk : k ≠ 0) (addr len : Nat) :
    Yields R (fun _ => True) (fun _ => True) (pattern w k addr len) := by
  have hseq : ∀ addr len, Yields R (fun _ => True) (fun _ => True) (patternSeq addr len : M γ PUnit) :=
    fun _ _ => yields_upTo fun _ _ => hsimple _
  have hoffset := fun len => (strideGetOffset_aloof (γ := γ) len).oblivious.yields hstill
  match k, hk with
  | 1, _ =>
    refine yields_seq (hoffset len) fun stride => ?_
    have hloop : ∀ n i, Yields R (fun _ => True) (fun _ => True)
        (patternStrideLoop addr len stride n i : M γ PUnit) := by
      intro n
      induction n with
      | zero => exact fun _ => yields_throw trivial
      | succ n ih =>
        exact fun i => yields_ite (fun _ => yields_seq (hsimple _) fun _ => ih _) fun _ =>
          yields_pure trivial
    exact hloop _ _
  | 2, _ => exact hseq addr len
  | 3, _ => exact yields_seq (hoffset len) fun dist => yields_times (hseq addr dist) _
  | 4, _ =>
    have hpage : ∀ addr len, Yields R (fun _ => True) (fun _ => True) (randomTouchPage w addr len) :=
      fun _ _ => yields_seq yields_get fun _ =>
        yields_times (yields_seq ((randLim_aloof _).oblivious.yields hstill) fun _ => hseq _ _) _
    have hslice : ∀ first last pages n i, Yields R (fun _ => True) (fun _ => True)
        (randomTouchLoop w addr first last pages n i) := by
      intro first last pages n
      induction n with
      | zero => exact fun _ => yields_pure trivial
      | succ n ih =>
        exact fun i => yields_ite (fun _ => yields_pure trivial) fun _ =>
          yields_seq (hpage _ _) fun _ => ih _
    have halves : ∀ switcher n whichSlice, Yields R (fun _ => True) (fun _ => True)
        (randomTouchNLoop w addr len switcher n whichSlice) := by
      intro switcher n
      induction n with
      | zero => exact fun _ => yields_pure trivial
      | succ n ih =>
        exact fun whichSlice => yields_seq (yields_ite (fun _ => yields_throw trivial) fun _ =>
          hslice _ _ _ _ _) fun _ => ih _
    exact yields_seq yields_get fun _ => halves _ _ _
  | _ + 5, _ => exact yields_throw trivial

/-- Once the options are read, a turn moves along `R` when each touch does, and
each step that writes nothing. -/
theorem turn_yields (hstill : ∀ s t, Unwritten s t → R s t)
    (htouch : ∀ i, Yields R (fun _ => True) (fun _ => True) (touch w i)) {pc : Pc}
    (hpc : ∀ opts, pc ≠ .boot opts) : Yields R (fun _ => True) (fun _ => True) (turn w pc) := by
  have hloop : ∀ n, Yields R (fun _ => True) (fun _ => True) (loopN w n) := fun n =>
    yields_times (yields_seq (currTrack_aloof.oblivious.yields hstill) fun _ => htouch _) n
  cases pc with
  | boot opts => exact absurd rfl (hpc opts)
  | main => exact mainPass_aloof.oblivious.yields hstill
  | trans execTime t l =>
    apply yields_ite
    · intro _
      refine yields_seq ?_ fun _ => yields_pure trivial
      refine yields_seq ((randomAllocatorOne_oblivious _ _).yields hstill) fun _ => ?_
      exact yields_ite (fun _ => yields_pure trivial) fun _ =>
        yields_seq (hloop _) fun _ => yields_pure trivial
    · intro _
      refine yields_seq (yields_modify fun s => hstill _ _ ⟨rfl, rfl⟩) fun _ => ?_
      exact (jobHold_aloof execTime t).oblivious.yields hstill
  | hold l =>
    apply yields_ite
    · intro _
      refine yields_seq ?_ fun _ => yields_pure trivial
      refine yields_seq ?_ fun _ => yields_seq ((loopOnce_aloof _).oblivious.yields hstill) fun _ =>
        yields_seq ((cputime_aloof _).oblivious.yields hstill) fun _ => yields_pure trivial
      exact yields_ite (fun _ => yields_seq (htouch _) fun _ => yields_pure trivial) fun _ =>
        yields_seq (currTrack_aloof.oblivious.yields hstill) fun _ => yields_pure trivial
    · intro _
      exact yields_seq (yields_modify fun s => hstill _ _ ⟨rfl, rfl⟩) fun _ => yields_pure trivial
  | stopped h => exact yields_pure trivial

theorem step_yields (hstill : ∀ s t, Unwritten s t → R s t)
    (htouch : ∀ i, Yields R (fun _ => True) (fun _ => True) (touch w i)) {m : Machine γ}
    (hpc : ∀ opts, m.pc ≠ .boot opts) : R m.st (step w m).st := by
  have hturn := turn_yields hstill htouch hpc m.st
  exact step_of_ends (P := fun t => R m.st t.st)
    (hturn.mono (fun _ _ hq => hq.1) fun _ _ hq => hq.1)

end turns

/-- Reading the options writes nothing. -/
theorem step_boot_memory {m : Machine γ} {opts : List Opt} (hpc : m.pc = .boot opts) :
    (step w m).st.toMemory = m.st.toMemory := by
  obtain ⟨s, pc⟩ := m
  subst hpc
  exact step_of_ends (P := fun t => t.st.toMemory = s.toMemory)
    ((mainEnter_setup (w := w) opts s).mono (fun _ _ hq => hq.1.still.memory)
      fun _ _ hq => hq.1.still.memory)

/-- How often the byte at `a` was written. -/
def timesWritten (s : St γ) (a : Nat) : Nat := s.writes.countP fun e => e.2 = a

/-- Each byte was changed by `touch_simple` as often as it was written. -/
structure Toggles (s t : St γ) : Prop where
  access : t.accessType = s.accessType
  times : ∀ a, timesWritten s a ≤ timesWritten t a
  mem : ∀ a, t.mem a = toggled^[timesWritten t a - timesWritten s a] (s.mem a)

theorem Toggles.refl (s : St γ) : Toggles s s := by
  refine ⟨rfl, fun _ => Nat.le_refl _, fun a => ?_⟩
  rw [Nat.sub_self]
  rfl

theorem Toggles.trans {s t u : St γ} (h : Toggles s t) (h' : Toggles t u) : Toggles s u := by
  refine ⟨h'.access.trans h.access, fun a => (h.times a).trans (h'.times a), fun a => ?_⟩
  have hsum : timesWritten u a - timesWritten s a =
      (timesWritten u a - timesWritten t a) + (timesWritten t a - timesWritten s a) := by
    have hst := h.times a
    have htu := h'.times a
    omega
  rw [h'.mem, h.mem, ← Function.iterate_add_apply, hsum]

theorem Unwritten.toggles {s t : St γ} (h : Unwritten s t) : Toggles s t := by
  have hmem : t.mem = s.mem := congrArg Memory.mem h.memory
  have hw : t.writes = s.writes := congrArg Memory.writes h.memory
  have htimes : ∀ a, timesWritten t a = timesWritten s a := by
    intro a
    rw [timesWritten, hw, timesWritten]
  refine ⟨h.access, fun a => (htimes a).ge, fun a => ?_⟩
  rw [htimes, Nat.sub_self, hmem]
  rfl

instance : IsPreorder (St γ) Toggles where
  refl := Toggles.refl
  trans _ _ _ := Toggles.trans

theorem touchSimple_stores (a : Nat) (s : St γ) :
    touchSimple a s = .ok ⟨⟩ { s with
      mem := Function.update s.mem a (toggled (s.mem a))
      writes := (s.curr, a) :: s.writes } := by
  unfold touchSimple toggled
  by_cases h : s.mem a ≠ 0xf
  · rw [if_pos h]
    exact congrFun (if_pos h) s
  · rw [if_neg h]
    exact congrFun (if_neg h) s

theorem touchSimple_counts (a : Nat) :
    Yields Toggles (fun _ => True) (fun _ => True) (touchSimple a : M γ PUnit) := by
  intro s
  unfold Ends
  rw [touchSimple_stores]
  refine ⟨⟨rfl, fun b => ?_, fun b => ?_⟩, trivial⟩
  · simp only [timesWritten, List.countP_cons]
    omega
  · by_cases hb : b = a
    · subst hb
      simp [timesWritten]
    · have hne : ¬a = b := fun h => hb h.symm
      simp [timesWritten, hne, Function.update_of_ne hb]

/-- A step of the program as long as the access type is not the fix pattern. -/
structure TogglesIfSet (s t : St γ) : Prop where
  access : t.accessType = s.accessType
  toggles : s.accessType ≠ 0 → Toggles s t

theorem Toggles.ifSet {s t : St γ} (h : Toggles s t) : TogglesIfSet s t := ⟨h.access, fun _ => h⟩

instance : IsPreorder (St γ) TogglesIfSet where
  refl s := (Toggles.refl s).ifSet
  trans _ _ _ h h' :=
    ⟨h'.access.trans h.access, fun hs => (h.toggles hs).trans (h'.toggles (h.access ▸ hs))⟩

theorem touch_toggles (i : Nat) :
    Yields TogglesIfSet (fun _ => True) (fun _ => True) (touch w i) := by
  intro s
  by_cases hs : s.accessType = 0
  · have hfix : ∀ t, Touched w s t → TogglesIfSet s t := fun t ht =>
      ⟨congrArg (fun b : Book => b.accessType) ht.kept.book, fun h => absurd hs h⟩
    exact (touch_ends (w := w) i s).mono (fun _ t ht => ⟨hfix t ht, trivial⟩)
      fun _ t ht => ⟨hfix t ht.1, trivial⟩
  · have hpattern := fun r : AllocRec => pattern_yields (w := w) (R := Toggles)
      (fun _ _ => Unwritten.toggles) touchSimple_counts hs r.addr r.len
    have htouch : Ends (touch w i) s (fun _ t => Toggles s t ∧ True) fun _ t => Toggles s t ∧ True := by
      unfold touch
      rw [ends_bind, ends_get, ends_ite]
      refine ⟨fun _ => ?_, fun _ => ⟨Toggles.refl s, trivial⟩⟩
      refine yields_seq (currTrack_aloof.oblivious.yields fun _ _ => Unwritten.toggles) (fun lst => ?_) s
      cases lst[i]? with
      | none => exact yields_pure trivial
      | some r => exact hpattern r
    exact htouch.mono (fun _ _ h => ⟨h.1.ifSet, trivial⟩) fun _ _ h => ⟨h.1.ifSet, trivial⟩

/-- The memory is what the writes so far make of the first one. -/
structure Written (mem : Nat → UInt8) (m : Machine γ) : Prop where
  booting : ∀ opts, m.pc = .boot opts → m.st.mem = mem ∧ m.st.writes = []
  mem : m.st.accessType ≠ 0 → ∀ a, m.st.mem a = toggled^[timesWritten m.st a] (mem a)

theorem Written.step {mem : Nat → UInt8} {m : Machine γ} (h : Written mem m) (hok : Ok (view m)) :
    Written mem (step w m) := by
  refine ⟨fun os ho => absurd ho ((step_turned hok).move.booted os), fun hset a => ?_⟩
  by_cases hboot : ∃ opts, m.pc = .boot opts
  · obtain ⟨opts, hpc⟩ := hboot
    obtain ⟨hm, hw⟩ := h.booting opts hpc
    have hmem := step_boot_memory (w := w) hpc
    have hm' : (Gobbler.step w m).st.mem = mem := (congrArg Memory.mem hmem).trans hm
    have hw' : (Gobbler.step w m).st.writes = [] := (congrArg Memory.writes hmem).trans hw
    rw [timesWritten, hw', hm']
    rfl
  · have hstep : TogglesIfSet m.st (Gobbler.step w m).st :=
      step_yields (fun _ _ hu => hu.toggles.ifSet) touch_toggles fun opts ho => hboot ⟨opts, ho⟩
    have hset' : m.st.accessType ≠ 0 := hstep.access ▸ hset
    have htoggles := hstep.toggles hset'
    have hle := htoggles.times a
    rw [htoggles.mem, h.mem hset', ← Function.iterate_add_apply, Nat.sub_add_cancel hle]

/-- In every state of a run the contents of a byte are told by the number of
times that it was written, unless the fix pattern is chosen. -/
theorem memory_of_writes (w : World γ) (table : FileTable) (opts : List Opt) (mem : Nat → UInt8)
    (gen : γ) (n : Nat) (hset : (run w table opts mem gen n).st.accessType ≠ 0) (a : Nat) :
    let s := (run w table opts mem gen n).st
    s.mem a = toggled^[s.writes.countP fun e => e.2 = a] (mem a) := by
  have hall : Written mem (run w table opts mem gen n) := by
    clear hset
    induction n with
    | zero => exact ⟨fun _ _ => ⟨rfl, rfl⟩, fun _ _ => rfl⟩
    | succ n ih =>
      rw [run_succ]
      exact ih.step (run_ok w table opts mem gen n)
  exact hall.mem hset a

/-- The first page after a pass of the repeat pattern. -/
theorem memory_of_writes_repeat :
    let s := (run plainWorld smallTable [.p 2, .M 1, .e 2, .t 3] (fun _ => 0) () 5).st
    s.mem 1048576 = toggled^[s.writes.countP fun e => e.2 = 1048576] 0 :=
  memory_of_writes plainWorld smallTable [.p 2, .M 1, .e 2, .t 3] (fun _ => 0) () 5
    (by decide +kernel) 1048576

end Gobbler.Proofs
