import Gobbler.Proofs.Contents
import Gobbler.Proofs.Inside

namespace Gobbler.Proofs
open Effect

variable {γ : Type} {w : World γ} {table : FileTable} {opts : List Opt} {mem : Nat → UInt8} {gen : γ}

/-- Only bytes of the record were written, if there is one, and the books were kept. -/
structure Confined (o : Option AllocRec) (s t : St γ) : Prop where
  book : t.toBook = s.toBook
  mem : ∀ a, (∀ r ∈ o, a ∉ region r) → t.mem a = s.mem a
  writes : ∀ e ∈ t.writes, e ∈ s.writes ∨ (e.1 = s.curr ∧ ∃ r ∈ o, e.2 ∈ region r)
  idle : o = none → t.toMemory = s.toMemory

theorem Confined.refl (o : Option AllocRec) (s : St γ) : Confined o s s :=
  ⟨rfl, fun _ _ => rfl, fun _ h => .inl h, fun _ => rfl⟩

theorem Confined.trans {o : Option AllocRec} {s t u : St γ} (h : Confined o s t) (h' : Confined o t u) :
    Confined o s u := by
  have hc : t.curr = s.curr := congrArg (fun b : Book => b.curr) h.book
  refine ⟨h'.book.trans h.book, fun a ha => (h'.mem a ha).trans (h.mem a ha), fun e he => ?_,
    fun ho => (h'.idle ho).trans (h.idle ho)⟩
  rcases h'.writes e he with hold | hnew
  · exact h.writes e hold
  · exact .inr (hc ▸ hnew)

theorem Touches.confined {s t : St γ} {r : AllocRec} (h : Touches r.addr (r.addr + r.len) s t) :
    Confined (some r) s t := by
  refine ⟨h.book, fun a ha => h.mem a (ha r rfl), fun e he => ?_, fun ho => by simp at ho⟩
  rcases h.writes e he with hold | ⟨hc, hin⟩
  · exact .inl hold
  · exact .inr ⟨hc, r, rfl, hin⟩

/-- The mappings are as the access patterns need them. -/
structure TouchReady (w : World γ) (s : St γ) : Prop where
  sized : Sized w s.toBook
  fix : FixSound s.toBook s.fixHead

theorem touch_confined {s : St γ} (hs : TouchReady w s) (i : Nat) :
    Ends (touch w i) s (fun _ t => Confined (current s.toBook)[i]? s t)
      fun _ t => Confined (current s.toBook)[i]? s t := by
  unfold touch
  rw [ends_bind, ends_get, ends_ite]
  refine ⟨fun _ => ?_, fun _ => Confined.refl _ s⟩
  rw [ends_bind]
  refine (currTrack_ends s).mono ?_ ?_
  · rintro lst t ⟨rfl, rfl, _⟩
    cases hi : (current t.toBook)[i]? with
    | none => exact Confined.refl _ t
    | some r =>
      have hr : r ∈ current t.toBook := List.mem_of_getElem? hi
      have hfix : FixOk r.addr (r.addr + r.len) t := by
        intro node hn ha
        have hlt := hs.fix.inside r hr node hn ha
        omega
      have hsize := hs.sized.size r hr
      exact (pattern_inside (w := w) hs.sized.page r.addr hs.sized.access hsize.1 hsize.2 t).mono
        (fun _ _ hq => (hq.1.touches hfix).confined) fun _ _ hq => (hq.1.touches hfix).confined
  · rintro _ t ⟨rfl, _⟩
    exact Confined.refl _ t

/-- A touch leaves the mappings as the access patterns need them. -/
theorem TouchReady.touched {s t : St γ} (h : TouchReady w s) (ht : Touched w s t) : TouchReady w t := by
  have hb : t.toBook = s.toBook := ht.kept.book
  exact ⟨hb ▸ h.sized, h.fix.wrote (ht.wrote h.sized h.fix) hb⟩

theorem loopN_confined {s : St γ} (hs : TouchReady w s) (n : Nat) :
    Ends (loopN w n) s
      (fun _ t => Confined (current s.toBook)[wrapSub (current s.toBook).length 1]? s t)
      fun _ t => Confined (current s.toBook)[wrapSub (current s.toBook).length 1]? s t := by
  unfold loopN
  induction n generalizing s with
  | zero => exact Confined.refl _ s
  | succ n ih =>
    unfold times
    rw [ends_bind, ends_bind]
    refine (currTrack_ends s).mono ?_ ?_
    · rintro lst t ⟨rfl, rfl, _⟩
      refine ((touch_confined hs _).and (touch_ends _ t)).mono ?_ fun _ _ hq => hq.1
      rintro _ u ⟨hin, hu⟩
      have hb : u.toBook = t.toBook := hu.kept.book
      have hrest := ih (hs.touched hu)
      rw [hb] at hrest
      exact hrest.mono (fun _ _ hv => hin.trans hv) fun _ _ hv => hin.trans hv
    · rintro _ t ⟨rfl, _⟩
      exact Confined.refl _ t

/-- What a turn may write: a request touches the mapping it has just made, and
a pass of a holding state the record its index has come to. -/
inductive Aimed (pc : Pc) (s t : St γ) : Prop
  | nothing (memory : t.toMemory = s.toMemory)
  | newest {r : AllocRec} (trans : inTransition pc = true)
    (records : current t.toBook = current s.toBook ++ [r])
    (mem : ∀ a, a ∉ region r → t.mem a = s.mem a)
    (writes : ∀ e ∈ t.writes, e ∈ s.writes ∨ (e.1 = s.curr ∧ e.2 ∈ region r))
  | visited {l : HoldLocals} {r : AllocRec} (hold : pc = .hold l) (pos : 0 < l.i)
    (record : (current s.toBook)[l.i - 1]? = some r)
    (mem : ∀ a, a ∉ region r → t.mem a = s.mem a)
    (writes : ∀ e ∈ t.writes, e ∈ s.writes ∨ (e.1 = s.curr ∧ e.2 ∈ region r))

theorem Confined.aimed_newest {s u v : St γ} {pc : Pc} {r : AllocRec} (h : Confined (some r) u v)
    (htrans : inTransition pc = true) (hrecords : current u.toBook = current s.toBook ++ [r])
    (hcurr : u.curr = s.curr) (hmemory : u.toMemory = s.toMemory) : Aimed pc s v := by
  have hmem : u.mem = s.mem := congrArg Memory.mem hmemory
  have hwrites : u.writes = s.writes := congrArg Memory.writes hmemory
  refine .newest htrans (h.book ▸ hrecords) (fun a ha => ?_) fun e he => ?_
  · rw [h.mem a (by simpa using ha), hmem]
  · have hnew := h.writes e he
    rw [hwrites, hcurr] at hnew
    simpa using hnew

/-- The counters and the clock do not disturb what a touch wrote. -/
theorem Confined.aimed_visited {s u v : St γ} {l : HoldLocals}
    (h : Confined (current s.toBook)[l.i - 1]? s u) (hpos : 0 < l.i)
    (hmemory : v.toMemory = u.toMemory) : Aimed (.hold l) s v := by
  have hmem : v.mem = u.mem := congrArg Memory.mem hmemory
  have hwrites : v.writes = u.writes := congrArg Memory.writes hmemory
  cases hr : (current s.toBook)[l.i - 1]? with
  | none =>
    rw [hr] at h
    exact .nothing (hmemory.trans (h.idle rfl))
  | some r =>
    rw [hr] at h
    refine .visited rfl hpos hr (fun a ha => ?_) fun e he => ?_
    · rw [hmem, h.mem a (by simpa using ha)]
    · rw [hwrites] at he
      simpa using h.writes e he

theorem taken_allocTrack {ps : Nat} {l : Ledger} {lst : List FileClass} {r : AllocRec}
    {node : Option (Nat × Nat)} : (taken ps l lst r node).allocTrack =
      Function.update l.allocTrack l.curr.toNat (l.allocTrack l.curr.toNat ++ [r]) :=
  (marked_track (paged (recorded (searched (counted l) lst) r) r.type (r.len / ps)) node).1

/-- A request that was served found its phase in the tracker, and put its record
at the end of the list. -/
theorem RequestFor.newest {ps : Nat} {b : Book} {anonSlice : Int} {cnt cnt' : Nat} {typ : MemType}
    {l : Ledger} (h : Request ps b anonSlice cnt typ cnt' l) (hne : typ ≠ .typeMax) :
    InTracker b ∧ ∃ r, l.allocTrack = Function.update b.allocTrack b.curr.toNat (current b ++ [r]) ∧
      current (withLedger b l) = current b ++ [r] ∧ (current b).length < maxAllocPerSe := by
  cases h with
  | refused => exact absurd rfl hne
  | @served lst r node _ _ _ track room => exact ⟨track, r, taken_allocTrack, current_taken, room⟩

theorem newest_getElem {rs : List AllocRec} (r : AllocRec) (h : rs.length < maxAllocPerSe) :
    (rs ++ [r])[wrapSub (rs ++ [r]).length 1]? = some r := by
  have hlast : wrapSub (rs ++ [r]).length 1 = rs.length := by
    rw [List.length_append, List.length_singleton, wrapSub_of_le (by omega)]
    · omega
    · simp only [maxAllocPerSe] at h
      omega
  rw [hlast, List.getElem?_concat_length]

theorem transRandAllocPass_aimed {s : St γ} (hr : Ready s.toBook) {l : TransLocals} (e : ℚ)
    (t : Granularity) :
    Ends (transRandAllocPass w l) s
      (fun _ u => Sized w u.toBook → FixSound u.toBook s.fixHead → Aimed (.trans e t l) s u)
      fun _ u => Sized w u.toBook → FixSound u.toBook s.fixHead → Aimed (.trans e t l) s u := by
  unfold transRandAllocPass
  rw [ends_bind]
  refine (randomAllocatorOne_ends hr l.anonSlice l.cnt).mono ?_ ?_
  · rintro ⟨typ, cnt⟩ u ⟨led, hreq, hu⟩
    dsimp only
    rw [ends_ite]
    refine ⟨fun _ _ _ => .nothing hu.memory, fun hne => ?_⟩
    obtain ⟨_, r, _, hrecords, hroom⟩ := hreq.newest hne
    rw [← hu.book] at hrecords
    have hcurr : u.curr = s.curr := (congrArg Ledger.curr hu.ledger).trans hreq.curr
    have hfix : u.fixHead = s.fixHead := congrArg Memory.fixHead hu.memory
    have hready : ∀ v, Touched w u v → Sized w v.toBook → FixSound v.toBook s.fixHead → TouchReady w u := by
      intro v hv hs hf
      rw [hv.kept.book] at hs hf
      exact ⟨hs, hfix ▸ hf⟩
    have hloop : TouchReady w u → Ends (loopN w l.i) u (fun _ v => Confined (some r) u v)
        fun _ v => Confined (some r) u v := by
      intro hr
      have h := loopN_confined hr l.i
      rwa [hrecords, newest_getElem r hroom] at h
    rw [ends_bind]
    refine ((Ends.under hloop).and (loopN_ends l.i u)).mono ?_ ?_
    · rintro _ v ⟨hin, hv⟩ hs hf
      exact (hin (hready v hv hs hf)).aimed_newest rfl hrecords hcurr hu.memory
    · rintro _ v ⟨hin, hv, _⟩ hs hf
      exact (hin (hready v hv hs hf)).aimed_newest rfl hrecords hcurr hu.memory
  · rintro _ u ⟨led, hab, hu⟩ _ _
    exact .nothing hu.memory

theorem loopForTouch_aimed (l : HoldLocals) (s : St γ) :
    Ends (loopForTouch w l.i) s
      (fun _ u => ∀ v : St γ, v.toMemory = u.toMemory → TouchReady w s → Aimed (.hold l) s v)
      fun _ u => TouchReady w s → Aimed (.hold l) s u := by
  unfold loopForTouch
  rw [ends_ite]
  refine ⟨fun hpos => ?_, fun _ => ?_⟩
  · rw [ends_bind]
    exact (Ends.under fun hready => touch_confined hready (l.i - 1)).mono
      (fun _ u hu v hv hready => (hu hready).aimed_visited hpos hv)
      fun _ u hu hready => (hu hready).aimed_visited hpos rfl
  · rw [ends_bind]
    exact (currTrack_aloof.oblivious.unwritten s).mono (fun _ u hu v hv _ => .nothing (hv.trans hu.memory))
      fun _ u hu _ => .nothing hu.memory

theorem loopForPass_aimed (l : HoldLocals) (s : St γ) :
    Ends (loopForPass w l) s (fun _ u => TouchReady w s → Aimed (.hold l) s u)
      fun _ u => TouchReady w s → Aimed (.hold l) s u := by
  unfold loopForPass
  rw [ends_bind]
  apply (loopForTouch_aimed l s).imp
  intro i t ht
  rw [ends_bind]
  refine (loopOnce_ends _ t).mono ?_ fun _ _ h => h.elim
  rintro j _ ⟨num, rfl⟩
  rw [ends_bind]
  refine (cputime_ends l.t _).mono ?_ fun _ _ h => h.elim
  rintro now _ ⟨rfl, rfl⟩
  exact ht _ rfl

/-- A turn writes nothing, or only into the one mapping it is about. -/
theorem turn_aimed {s : St γ} {pc : Pc} (hok : Ok ⟨s.toBook, pc⟩) :
    Ends (turn w pc) s
      (fun _ u => TouchReady w s → Sized w u.toBook → FixSound u.toBook s.fixHead → Aimed pc s u)
      fun _ u => TouchReady w s → Sized w u.toBook → FixSound u.toBook s.fixHead → Aimed pc s u := by
  cases pc with
  | boot opts =>
    exact (mainEnter_setup opts s).mono (fun _ _ hq _ _ _ => .nothing hq.1.still.memory)
      fun _ _ hq _ _ _ => .nothing hq.1.still.memory
  | main =>
    exact (mainPass_aloof.oblivious.unwritten s).mono (fun _ _ hu _ _ _ => .nothing hu.memory)
      fun _ _ hu _ _ _ => .nothing hu.memory
  | trans execTime t l =>
    unfold turn
    rw [ends_ite]
    refine ⟨fun _ => ?_, fun _ => ?_⟩
    · rw [ends_bind]
      exact (transRandAllocPass_aimed hok.ready execTime t).mono (fun _ _ h _ => h) fun _ _ h _ => h
    · rw [ends_bind]
      change Ends (jobHold w execTime t) { s with toBook := left s.toBook } _ _
      exact ((jobHold_aloof execTime t).oblivious.unwritten _).mono
        (fun _ _ hu _ _ _ => .nothing hu.memory) fun _ _ hu _ _ _ => .nothing hu.memory
  | hold l =>
    unfold turn
    rw [ends_ite]
    refine ⟨fun _ => ?_, fun _ _ _ _ => .nothing rfl⟩
    rw [ends_bind]
    exact (loopForPass_aimed l s).mono (fun _ _ h hs _ _ => h hs) fun _ _ h hs _ _ => h hs
  | stopped h => exact fun _ _ _ => .nothing rfl

theorem step_aimed {m : Machine γ} (hok : Ok (view m)) (hready : TouchReady w m.st)
    (hs : Sized w (step w m).st.toBook) (hf : FixSound (step w m).st.toBook m.st.fixHead) :
    Aimed m.pc m.st (step w m).st :=
  step_of_ends (P := fun t => TouchReady w m.st → Sized w t.st.toBook →
    FixSound t.st.toBook m.st.fixHead → Aimed m.pc m.st t.st) (turn_aimed hok) hready hs hf

section run

variable (hps : w.pageSize = pageSize) (ht : PageTable table)
  (hplaced : ∀ n, Placed (run w table opts mem gen n).st.toLedger)

include hps ht hplaced in
theorem run_touchReady (n : Nat) : TouchReady w (run w table opts mem gen n).st := by
  have htr := run_tracked w table opts mem gen n
  refine ⟨run_sized hps ht hplaced n, fun r hr r' hr' ha => ?_, fun r hr node hn ha => ?_⟩
  · exact run_unique ht hplaced (htr.current_mem hr).2 (htr.current_mem hr').2 ha
  · obtain ⟨r', hr', ha', hlt⟩ := run_fixPlaced hps ht hplaced n node hn
    have heq : r' = r := run_unique ht hplaced hr' (htr.current_mem hr).2 (ha'.symm.trans ha)
    exact heq ▸ hlt

end run

/-- A request touches only the mapping it has just made, and a pass of a holding
state only the record its index has come to; every other turn writes nothing. -/
theorem turns_aimed (w : World γ) (hps : w.pageSize = 4096) (table : FileTable)
    (ht : PageTable table) (opts : List Opt) (mem : Nat → UInt8) (gen : γ)
    (hplaced : ∀ n, Placed (run w table opts mem gen n).st.toLedger) (n : Nat) :
    Aimed (run w table opts mem gen n).pc (run w table opts mem gen n).st
      (run w table opts mem gen (n + 1)).st := by
  have hsized := run_sized hps ht hplaced (n + 1)
  have hfix := (run_fixPlaced hps ht hplaced n).sound ht hplaced
  rw [run_succ] at hsized hfix ⊢
  exact step_aimed (run_ok w table opts mem gen n) (run_touchReady hps ht hplaced n) hsized hfix

/-- The first pass of a holding state touches the last record. -/
theorem turns_aimed_two : Aimed (twoPhases 5).pc (twoPhases 5).st (twoPhases 6).st := by
  have htable : PageTable smallTable := by simp [PageTable, smallTable, pageSize]
  exact turns_aimed plainWorld rfl smallTable htable [.p 3, .M 2, .e 1, .t 0] (fun _ => 0) ()
    twoPhases_placed 5

end Gobbler.Proofs
