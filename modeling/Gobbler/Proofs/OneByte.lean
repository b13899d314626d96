import Gobbler.Proofs.Contents
import Gobbler.Proofs.Inside
import Gobbler.Proofs.Report

namespace Gobbler.Proofs
open Effect Regions

variable {γ : Type} {w : World γ} {table : FileTable} {opts : List Opt} {mem : Nat → UInt8} {gen : γ}
  {rs : List AllocRec} {old : List FixNode} {s t : St γ}

/-- The byte a mapping is touched at. -/
def site (node : FixNode) : Nat := node.addr + node.loc

/-- The mappings are apart, and long enough for a location. -/
structure Spread (rs : List AllocRec) : Prop where
  apart : Apart region rs
  long : ∀ r ∈ rs, 10 ≤ r.len ∧ r.len < 2 ^ 64

/-- Each mapping touched so far is written at one byte, chosen for it, and at no
other, the nodes of `old` being among the choices; the byte tells whether it was
written an odd or an even number of times. -/
structure OneByte (rs : List AllocRec) (mem : Nat → UInt8) (old : List FixNode) (s : St γ) : Prop where
  once : (s.fixHead.map FixNode.addr).Nodup
  placed : ∀ node ∈ s.fixHead, ∃ r ∈ rs, node.addr = r.addr ∧ node.loc + 10 ≤ r.len
  written : ∀ e ∈ s.writes, ∃ node ∈ s.fixHead, e.2 = site node
  byte : ∀ node ∈ s.fixHead, s.mem (site node) = fixByte (timesWritten s (site node))
  others : ∀ a, (∀ node ∈ s.fixHead, a ≠ site node) → s.mem a = mem a
  kept : ∀ node ∈ old, node ∈ s.fixHead

theorem Spread.site_mem (h : Spread rs) {r : AllocRec} {loc : Nat} (hr : r ∈ rs) (hloc : loc + 10 ≤ r.len) :
    r.addr + loc ∈ region r := by
  have hlong := h.long r hr
  exact ⟨by omega, by omega⟩

/-- Two mappings do not share their byte. -/
theorem Spread.site_ne (h : Spread rs) {r r' : AllocRec} {loc loc' : Nat} (hr : r ∈ rs) (hr' : r' ∈ rs)
    (hloc : loc + 10 ≤ r.len) (hloc' : loc' + 10 ≤ r'.len) (hne : r.addr ≠ r'.addr) :
    r.addr + loc ≠ r'.addr + loc' := by
  intro heq
  have hin := h.site_mem hr hloc
  have hin' := h.site_mem hr' hloc'
  rw [← heq] at hin'
  exact hne (congrArg AllocRec.addr (h.apart.unique hr hr' hin hin'))

theorem timesWritten_cons {c : Int} {a b : Nat} (hw : t.writes = (c, a) :: s.writes) :
    timesWritten t b = timesWritten s b + if a = b then 1 else 0 := by
  by_cases h : a = b <;> simp [timesWritten, hw, h]

theorem OneByte.same (h : OneByte rs mem old s) (hm : t.toMemory = s.toMemory) : OneByte rs mem old t := by
  have hmem : t.mem = s.mem := congrArg Memory.mem hm
  have hhead : t.fixHead = s.fixHead := congrArg Memory.fixHead hm
  have hwrites : t.writes = s.writes := congrArg Memory.writes hm
  refine ⟨hhead ▸ h.once, hhead ▸ h.placed, ?_, ?_, ?_, hhead ▸ h.kept⟩
  · rw [hwrites, hhead]
    exact h.written
  · unfold timesWritten
    rw [hmem, hhead, hwrites]
    exact h.byte
  · rw [hhead, hmem]
    exact h.others

theorem OneByte.of_subset {rs' : List AllocRec} (h : OneByte rs mem old s) (hrs : ∀ r ∈ rs, r ∈ rs') :
    OneByte rs' mem old s := by
  refine ⟨h.once, fun node hn => ?_, h.written, h.byte, h.others, h.kept⟩
  obtain ⟨r, hr, hin⟩ := h.placed node hn
  exact ⟨r, hrs r hr, hin⟩

/-- A mapping that has its byte is touched there again. -/
theorem OneByte.again (h : OneByte rs mem old s) {node : FixNode} {c : Int}
    (hnode : node ∈ s.fixHead) (hhead : t.fixHead = s.fixHead)
    (hmem : t.mem = Function.update s.mem (site node) (toggled (s.mem (site node))))
    (hwrites : t.writes = (c, site node) :: s.writes) : OneByte rs mem old t := by
  refine ⟨hhead ▸ h.once, hhead ▸ h.placed, ?_, ?_, ?_, hhead ▸ h.kept⟩
  · rw [hwrites, hhead]
    exact List.forall_mem_cons.mpr ⟨⟨node, hnode, rfl⟩, h.written⟩
  · rw [hhead]
    intro node' hnode'
    rw [timesWritten_cons hwrites, hmem]
    by_cases hsame : site node' = site node
    · rw [hsame, Function.update_self, if_pos rfl, h.byte node hnode, toggled_fixByte]
    · rw [Function.update_of_ne hsame, if_neg (Ne.symm hsame)]
      exact h.byte node' hnode'
  · rw [hhead]
    intro a ha
    rw [hmem, Function.update_of_ne (ha node hnode)]
    exact h.others a ha

/-- A mapping touched for the first time gets its byte. -/
theorem OneByte.first (h : OneByte rs mem old s) (hrs : Spread rs) {r : AllocRec} {loc : Nat} {c : Int}
    (hr : r ∈ rs) (hloc : loc + 10 ≤ r.len) (hfresh : ∀ node ∈ s.fixHead, node.addr ≠ r.addr)
    (hhead : t.fixHead = ⟨r.addr, loc⟩ :: s.fixHead)
    (hmem : t.mem = Function.update s.mem (r.addr + loc) 0x00)
    (hwrites : t.writes = (c, r.addr + loc) :: s.writes) : OneByte rs mem old t := by
  have hnew : ∀ node ∈ s.fixHead, site node ≠ r.addr + loc := by
    intro node hnode
    obtain ⟨r', hr', haddr, hlen⟩ := h.placed node hnode
    unfold site
    rw [haddr]
    exact hrs.site_ne hr' hr hlen hloc (haddr ▸ hfresh node hnode)
  refine ⟨?_, ?_, ?_, ?_, ?_, ?_⟩
  · rw [hhead, List.map_cons, List.nodup_cons]
    refine ⟨fun hin => ?_, h.once⟩
    obtain ⟨node, hnode, heq⟩ := List.mem_map.mp hin
    exact hfresh node hnode heq
  · rw [hhead]
    exact List.forall_mem_cons.mpr ⟨⟨r, hr, rfl, hloc⟩, h.placed⟩
  · rw [hwrites, hhead]
    refine List.forall_mem_cons.mpr ⟨⟨_, List.mem_cons_self, rfl⟩, fun e he => ?_⟩
    obtain ⟨node, hnode, heq⟩ := h.written e he
    exact ⟨node, List.mem_cons_of_mem _ hnode, heq⟩
  · rw [hhead]
    refine List.forall_mem_cons.mpr ⟨?_, fun node hnode => ?_⟩
    · have hnone : timesWritten s (r.addr + loc) = 0 := by
        rw [timesWritten, List.countP_eq_zero]
        intro e he
        obtain ⟨node, hnode, heq⟩ := h.written e he
        simpa [heq] using hnew node hnode
      change t.mem (r.addr + loc) = fixByte (timesWritten t (r.addr + loc))
      rw [timesWritten_cons hwrites, hmem, Function.update_self, if_pos rfl, hnone]
      rfl
    · rw [timesWritten_cons hwrites, hmem, Function.update_of_ne (hnew node hnode),
        if_neg (Ne.symm (hnew node hnode))]
      exact h.byte node hnode
  · rw [hhead]
    intro a ha
    obtain ⟨hne, hothers⟩ := List.forall_mem_cons.mp ha
    change a ≠ r.addr + loc at hne
    rw [hmem, Function.update_of_ne hne]
    exact h.others a hothers
  · rw [hhead]
    exact fun node hnode => List.mem_cons_of_mem _ (h.kept node hnode)

theorem patternFix_oneByte (hrs : Spread rs) {r : AllocRec} (hr : r ∈ rs) (h : OneByte rs mem old s) :
    Ends (patternFix w r.addr r.len) s (fun _ t => OneByte rs mem old t) fun _ t => OneByte rs mem old t := by
  obtain ⟨hl, hh⟩ := hrs.long r hr
  unfold patternFix
  rw [ends_ite]
  refine ⟨fun _ => h, fun _ => ?_⟩
  simp only [ends_bind, ends_get]
  cases hf : fixExists s.fixHead r.addr with
  | some node =>
    obtain ⟨hnode, _⟩ := fixExists_mem hf
    change Ends (touchSimple (site node)) s _ _
    unfold Ends
    rw [touchSimple_stores]
    exact h.again hnode rfl rfl rfl
  | none =>
    have hfresh : ∀ node ∈ s.fixHead, node.addr ≠ r.addr := by
      simpa [fixExists] using hf
    unfold fixAllocNode
    simp only [ends_bind, ends_get]
    rw [ends_ite]
    refine ⟨fun _ => ?_, fun _ => h⟩
    simp only [ends_bind, ends_set, ends_pure, if_true]
    refine (fixRandLoc_chooses hl hh s).mono ?_ fun _ _ he => he.elim
    rintro _ t ⟨loc, hloc, hpicked⟩
    exact h.first hrs hr (by omega) hfresh hpicked.head hpicked.mem hpicked.writes

/-- The fix pattern is set, and the mappings of the phase are among `rs`. -/
structure FixSet (rs : List AllocRec) (s : St γ) : Prop where
  access : s.accessType = 0
  current : ∀ r ∈ current s.toBook, r ∈ rs

theorem FixSet.touched (h : FixSet rs s) (ht : Touched w s t) : FixSet rs t := by
  have hb : t.toBook = s.toBook := ht.kept.book
  exact ⟨(congrArg (fun b : Book => b.accessType) hb).trans h.access, hb ▸ h.current⟩

theorem touch_oneByte (hrs : Spread rs) (hs : FixSet rs s) (h : OneByte rs mem old s) (i : Nat) :
    Ends (touch w i) s (fun _ t => OneByte rs mem old t) fun _ t => OneByte rs mem old t := by
  unfold touch
  rw [ends_bind, ends_get, ends_ite]
  refine ⟨fun _ => ?_, fun _ => h⟩
  rw [ends_bind]
  refine (currTrack_ends s).mono ?_ ?_
  · rintro lst t ⟨rfl, rfl, _⟩
    cases hi : (current t.toBook)[i]? with
    | none => exact h
    | some r =>
      rw [hs.access]
      exact patternFix_oneByte hrs (hs.current r (List.mem_of_getElem? hi)) h
  · rintro _ t ⟨rfl, _⟩
    exact h

theorem loopN_oneByte (hrs : Spread rs) (n : Nat) (hs : FixSet rs s) (h : OneByte rs mem old s) :
    Ends (loopN w n) s (fun _ t => OneByte rs mem old t) fun _ t => OneByte rs mem old t := by
  unfold loopN
  induction n generalizing s with
  | zero => exact h
  | succ n ih =>
    unfold times
    rw [ends_bind, ends_bind]
    refine (currTrack_ends s).mono ?_ ?_
    · rintro lst t ⟨rfl, rfl, _⟩
      refine ((touch_oneByte hrs hs h _).and (touch_ends _ t)).mono ?_ fun _ _ hq => hq.1
      rintro _ u ⟨hu, htouched⟩
      exact ih (hs.touched htouched) hu
    · rintro _ t ⟨rfl, _⟩
      exact h

/-- What a turn needs of the records it ends with, and what it keeps then. -/
def KeepsOneByte (mem : Nat → UInt8) (old : List FixNode) (s t : St γ) : Prop :=
  Spread (allRecords t.toLedger) → FixSet (allRecords t.toLedger) t →
    OneByte (allRecords t.toLedger) mem old s → OneByte (allRecords t.toLedger) mem old t

theorem KeepsOneByte.of_same (hm : t.toMemory = s.toMemory) : KeepsOneByte mem old s t :=
  fun _ _ h => h.same hm

/-- The memory, the ledger and the access type are as before. -/
structure AtRest (s t : St γ) : Prop where
  memory : t.toMemory = s.toMemory
  ledger : t.toLedger = s.toLedger
  access : t.accessType = s.accessType

structure Primed (mem : Nat → UInt8) (old : List FixNode) (s : St γ) : Prop where
  spread : Spread (allRecords s.toLedger)
  fixSet : FixSet (allRecords s.toLedger) s
  byte : OneByte (allRecords s.toLedger) mem old s

/-- Touches between two parts of a turn that write nothing. -/
theorem KeepsOneByte.of_touched {u v : St γ} (hm : t.toMemory = s.toMemory) (ht : Touched w t u)
    (hv : AtRest u v)
    (h : Primed mem old t → OneByte (allRecords t.toLedger) mem old u) :
    KeepsOneByte mem old s v := by
  intro hrs hset hone
  have hb : u.toBook = t.toBook := ht.kept.book
  have hl : v.toLedger = t.toLedger := hv.ledger.trans (congrArg Book.toLedger hb)
  have haccess : v.accessType = t.accessType :=
    hv.access.trans (congrArg (fun b : Book => b.accessType) hb)
  have hcurrent : current v.toBook = current t.toBook :=
    congrArg (fun l : Ledger => l.allocTrack l.curr.toNat) hl
  rw [hl] at hrs hset hone ⊢
  refine (h ⟨hrs, ⟨haccess ▸ hset.access, hcurrent ▸ hset.current⟩, hone.same hm⟩).same hv.memory

theorem loopN_keeps (n : Nat) (s : St γ) (hm : t.toMemory = s.toMemory) :
    Ends (loopN w n) t (fun _ u => KeepsOneByte mem old s u) fun _ u => KeepsOneByte mem old s u := by
  have hone := Ends.under fun (h : Primed mem old t) => loopN_oneByte (w := w) h.spread n h.fixSet h.byte
  refine (hone.and (loopN_ends n t)).mono ?_ ?_
  · rintro _ u ⟨hone, htouched⟩
    exact .of_touched hm htouched ⟨rfl, rfl, rfl⟩ hone
  · rintro _ u ⟨hone, htouched, _⟩
    exact .of_touched hm htouched ⟨rfl, rfl, rfl⟩ hone

theorem keeps_of_oblivious {α : Type} {m : M γ α} (h : Oblivious m) (s : St γ) :
    Ends m s (fun _ t => KeepsOneByte mem old s t) fun _ t => KeepsOneByte mem old s t :=
  (h.unwritten s).mono (fun _ _ hu => .of_same hu.memory) fun _ _ hu => .of_same hu.memory

theorem loopForTouch_keeps (i : Nat) (s : St γ) :
    Ends (loopForTouch w i) s (fun _ u => ∀ v, AtRest u v → KeepsOneByte mem old s v)
      fun _ u => KeepsOneByte mem old s u := by
  unfold loopForTouch
  rw [ends_ite]
  refine ⟨fun _ => ?_, fun _ => ?_⟩
  · rw [ends_bind]
    refine ((Ends.under fun (h : Primed mem old s) => touch_oneByte h.spread h.fixSet h.byte (i - 1)).and
      (touch_ends (i - 1) s)).mono ?_ ?_
    · rintro _ u ⟨hone, htouched⟩ v hv
      exact .of_touched rfl htouched hv hone
    · rintro _ u ⟨hone, htouched, _⟩
      exact .of_touched rfl htouched ⟨rfl, rfl, rfl⟩ hone
  · rw [ends_bind]
    exact (currTrack_aloof.oblivious.unwritten s).mono
      (fun _ _ hu v hv => .of_same (hv.memory.trans hu.memory)) fun _ _ hu => .of_same hu.memory

theorem loopForPass_keeps (l : HoldLocals) (s : St γ) :
    Ends (loopForPass w l) s (fun _ u => KeepsOneByte mem old s u) fun _ u => KeepsOneByte mem old s u := by
  unfold loopForPass
  rw [ends_bind]
  apply (loopForTouch_keeps l.i s).imp
  intro i t ht
  rw [ends_bind]
  refine (loopOnce_ends _ t).mono ?_ fun _ _ h => h.elim
  rintro j _ ⟨num, rfl⟩
  rw [ends_bind]
  refine (cputime_ends l.t _).mono ?_ fun _ _ h => h.elim
  rintro now _ ⟨rfl, rfl⟩
  exact ht _ ⟨rfl, rfl, rfl⟩

theorem turn_keeps (pc : Pc) (s : St γ) :
    Ends (turn w pc) s (fun _ u => KeepsOneByte mem old s u) fun _ u => KeepsOneByte mem old s u := by
  cases pc with
  | boot opts =>
    exact (mainEnter_setup opts s).mono (fun _ _ hq => .of_same hq.1.still.memory)
      fun _ _ hq => .of_same hq.1.still.memory
  | main => exact keeps_of_oblivious mainPass_aloof.oblivious s
  | trans execTime t l =>
    unfold turn
    rw [ends_ite]
    refine ⟨fun _ => ?_, fun _ => ?_⟩
    · rw [ends_bind]
      unfold transRandAllocPass
      rw [ends_bind]
      refine ((randomAllocatorOne_oblivious _ _).unwritten s).mono ?_ fun _ _ hu => .of_same hu.memory
      rintro ⟨typ, cnt⟩ u hu
      dsimp only
      rw [ends_ite]
      refine ⟨fun _ => .of_same hu.memory, fun _ => ?_⟩
      rw [ends_bind]
      exact loopN_keeps l.i s hu.memory
    · rw [ends_bind]
      change Ends (jobHold w execTime t) { s with toBook := left s.toBook } _ _
      exact ((jobHold_aloof execTime t).oblivious.unwritten _).mono (fun _ _ hu => .of_same hu.memory)
        fun _ _ hu => .of_same hu.memory
  | hold l =>
    unfold turn
    rw [ends_ite]
    refine ⟨fun _ => ?_, fun _ => .of_same rfl⟩
    rw [ends_bind]
    exact (loopForPass_keeps l s).mono (fun _ _ h => h) fun _ _ h => h
  | stopped h => exact .of_same rfl

theorem Move.access {v v' : View} (hm : Move w v v') (hpc : ∀ os, v.pc ≠ .boot os) :
    v'.book.accessType = v.book.accessType := by
  cases hm with
  | boot => exact absurd rfl (hpc _)
  | idle hi => cases hi <;> rfl
  | finish located | overrun located | skip located | enter located | enterHalt located =>
    exact located.settled.1
  | request | trouble | aborted => rfl

section run

variable (ht : PageTable table) (hplaced : ∀ n, Placed (run w table opts mem gen n).st.toLedger)

include ht hplaced in
theorem run_spread (n : Nat) : Spread (allRecords (run w table opts mem gen n).st.toLedger) := by
  refine ⟨(hplaced n).apart, fun r hr => ?_⟩
  obtain ⟨hpos, hdvd, _⟩ := run_paged w ht opts mem gen n r hr
  have hle := Nat.le_of_dvd hpos hdvd
  have hshort := (hplaced n).short r hr
  simp only [pageSize] at hle
  omega

include ht hplaced in
/-- A step of a run with the fix pattern. -/
theorem OneByte.step {n : Nat} {mem₀ : Nat → UInt8}
    (h : OneByte (allRecords (run w table opts mem gen n).st.toLedger) mem₀ old
      (run w table opts mem gen n).st)
    (hfix : (run w table opts mem gen (n + 1)).st.accessType = 0) :
    OneByte (allRecords (run w table opts mem gen (n + 1)).st.toLedger) mem₀ old
      (run w table opts mem gen (n + 1)).st := by
  have hkeeps : KeepsOneByte mem₀ old (run w table opts mem gen n).st
      (run w table opts mem gen (n + 1)).st := by
    rw [run_succ]
    exact step_of_ends (P := fun m => KeepsOneByte mem₀ old _ m.st) (turn_keeps _ _)
  refine hkeeps (run_spread ht hplaced (n + 1)) ⟨hfix, fun r hr => ?_⟩ (h.of_subset ?_)
  · exact ((run_tracked w table opts mem gen (n + 1)).current_mem hr).2
  · exact fun r hr => (run_records w table opts mem gen n 1).subset hr

theorem booted_oneByte :
    OneByte (allRecords (booted table opts mem gen).st.toLedger) mem [] (booted table opts mem gen).st :=
  ⟨List.nodup_nil, by simp [booted, initial], by simp [booted, initial], by simp [booted, initial],
    fun _ _ => rfl, by simp⟩

theorem run_access {n : Nat} (h : (run w table opts mem gen (n + 1)).st.accessType = 0) (k : Nat) :
    (run w table opts mem gen (n + 1 + k)).st.accessType = 0 := by
  induction k with
  | zero => exact h
  | succ k ih =>
    have hmove := (run_turned w table opts mem gen (n + 1 + k)).move
    have hboot := (run_turned w table opts mem gen (n + k)).move.booted
    rw [show n + k + 1 = n + 1 + k by omega] at hboot
    exact (hmove.access hboot).trans ih

include ht hplaced in
theorem run_oneByte {n : Nat} (hfix : (run w table opts mem gen n).st.accessType = 0) :
    OneByte (allRecords (run w table opts mem gen n).st.toLedger) mem []
      (run w table opts mem gen n).st := by
  induction n with
  | zero => cases hfix
  | succ n ih =>
    cases n with
    | zero =>
      have hstart : OneByte (allRecords (run w table opts mem gen 0).st.toLedger) mem []
          (run w table opts mem gen 0).st := booted_oneByte
      exact hstart.step ht hplaced hfix
    | succ n =>
      have hmove := (run_turned w table opts mem gen (n + 1)).move
      have hboot := (run_turned w table opts mem gen n).move.booted
      exact (ih ((hmove.access hboot).symm.trans hfix)).step ht hplaced hfix

include ht hplaced in
/-- A location once chosen is never given up. -/
theorem run_sites {n : Nat} (hfix : (run w table opts mem gen n).st.accessType = 0) (k : Nat) :
    OneByte (allRecords (run w table opts mem gen (n + k)).st.toLedger) mem
      (run w table opts mem gen n).st.fixHead (run w table opts mem gen (n + k)).st := by
  induction k with
  | zero =>
    have h := run_oneByte ht hplaced hfix
    exact ⟨h.once, h.placed, h.written, h.byte, h.others, fun _ hnode => hnode⟩
  | succ k ih =>
    refine ih.step ht hplaced ?_
    cases n with
    | zero => cases hfix
    | succ n => exact run_access hfix (k + 1)

end run

/-- With the fix pattern the whole run writes one byte of each mapping it
touches. The byte lies at least ten bytes before the end of the mapping, the
choice is kept ever after, and the byte tells whether it was written an odd or
an even number of times. -/
theorem one_byte_per_mapping (w : World γ) (table : FileTable) (ht : PageTable table)
    (opts : List Opt) (mem : Nat → UInt8) (gen : γ)
    (hplaced : ∀ n, Placed (run w table opts mem gen n).st.toLedger) (n k : Nat)
    (hfix : (run w table opts mem gen n).st.accessType = 0) :
    let s := (run w table opts mem gen n).st
    let u := (run w table opts mem gen (n + k)).st
    (s.fixHead.map FixNode.addr).Nodup ∧
      (∀ node ∈ s.fixHead, node ∈ u.fixHead ∧
        (∃ r ∈ allRecords s.toLedger, node.addr = r.addr ∧ node.loc + 10 ≤ r.len) ∧
        s.mem (node.addr + node.loc) = fixByte (timesWritten s (node.addr + node.loc))) ∧
      (∀ e ∈ s.writes, ∃ node ∈ s.fixHead, e.2 = node.addr + node.loc) ∧
      ∀ a, (∀ node ∈ s.fixHead, a ≠ node.addr + node.loc) → s.mem a = mem a := by
  have h := run_oneByte ht hplaced hfix
  have hlater := run_sites ht hplaced hfix k
  refine ⟨h.once, fun node hnode => ⟨?_, h.placed node hnode, h.byte node hnode⟩, h.written, h.others⟩
  exact hlater.kept node hnode

theorem one_byte_per_mapping_two :
    let s := (twoPhases 10).st
    let u := (twoPhases 13).st
    (s.fixHead.map FixNode.addr).Nodup ∧
      (∀ node ∈ s.fixHead, node ∈ u.fixHead ∧
        (∃ r ∈ allRecords s.toLedger, node.addr = r.addr ∧ node.loc + 10 ≤ r.len) ∧
        s.mem (node.addr + node.loc) = fixByte (timesWritten s (node.addr + node.loc))) ∧
      (∀ e ∈ s.writes, ∃ node ∈ s.fixHead, e.2 = node.addr + node.loc) ∧
      ∀ a, (∀ node ∈ s.fixHead, a ≠ node.addr + node.loc) → s.mem a = 0 := by
  have htable : PageTable smallTable := by simp [PageTable, smallTable, pageSize]
  exact one_byte_per_mapping plainWorld smallTable htable [.p 3, .M 2, .e 1, .t 0] (fun _ => 0) ()
    twoPhases_placed 10 3 (by decide +kernel)

end Gobbler.Proofs
