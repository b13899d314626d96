import Gobbler.Model.Pattern
import Gobbler.Proofs.Random
import Gobbler.Proofs.Windows

namespace Gobbler.Proofs
open Effect

variable {γ : Type} {w : World γ} {lo hi : Nat}

/-- Only bytes of `[lo, hi)` were written, and the list of the fix pattern was
extended only by a location inside that range. -/
structure Touches (lo hi : Nat) (s t : St γ) : Prop where
  book : t.toBook = s.toBook
  mem : ∀ a ∉ Set.Ico lo hi, t.mem a = s.mem a
  writes : ∀ e ∈ t.writes, e ∈ s.writes ∨ (e.1 = s.curr ∧ e.2 ∈ Set.Ico lo hi)
  fix : ∀ node ∈ t.fixHead, node ∈ s.fixHead ∨ (node.addr = lo ∧ lo + node.loc < hi)
  calls : CallsSafe s t

/-- The fix pattern remembers no location of the mapping at `lo` beyond `hi`. -/
def FixOk (lo hi : Nat) (s : St γ) : Prop :=
  ∀ node ∈ s.fixHead, node.addr = lo → lo + node.loc < hi

theorem Touches.refl (s : St γ) : Touches lo hi s s :=
  ⟨rfl, fun _ _ => rfl, fun _ h => .inl h, fun _ h => .inl h, fun _ h => .inl h⟩

theorem Touches.trans {s t u : St γ} (h : Touches lo hi s t) (h' : Touches lo hi t u) :
    Touches lo hi s u := by
  have hc : t.curr = s.curr := congrArg (fun b : Book => b.curr) h.book
  have hl : t.fileLst = s.fileLst := congrArg (fun b : Book => b.fileLst) h.book
  refine ⟨h'.book.trans h.book, fun a ha => (h'.mem a ha).trans (h.mem a ha), ?_, ?_,
    h.calls.trans (by rw [hl]) h'.calls⟩
  · intro e he
    rcases h'.writes e he with hm | hn
    · exact h.writes e hm
    · exact .inr (hc ▸ hn)
  · intro node hn
    rcases h'.fix node hn with hm | hi
    · exact h.fix node hm
    · exact .inr hi

theorem Quiet.touches {s t : St γ} (h : Quiet s t) : Touches lo hi s t :=
  ⟨h.book, fun a _ => congrFun h.mem a, fun _ he => .inl (h.writes ▸ he),
    fun _ hn => .inl (h.fixHead ▸ hn), h.calls⟩

theorem FixOk.touches {s t : St γ} (h : FixOk lo hi s) (ht : Touches lo hi s t) :
    FixOk lo hi t := by
  intro node hn ha
  rcases ht.fix node hn with hm | hi
  · exact h node hm ha
  · exact hi.2

/-- What an access pattern does to a mapping `[lo, hi)`: its calls are safe, and
it stays inside if the fix location of the mapping, where there is one, does. -/
structure Inside (lo hi : Nat) (s t : St γ) : Prop where
  book : t.toBook = s.toBook
  calls : CallsSafe s t
  touches : FixOk lo hi s → Touches lo hi s t

theorem Inside.refl (s : St γ) : Inside lo hi s s :=
  ⟨rfl, fun _ h => .inl h, fun _ => Touches.refl s⟩

theorem Inside.trans {s t u : St γ} (h : Inside lo hi s t) (h' : Inside lo hi t u) :
    Inside lo hi s u := by
  refine ⟨h'.book.trans h.book, h.calls.trans ?_ h'.calls, fun hf => ?_⟩
  · exact congrArg (fun b : Book => b.fileLst.length) h.book
  · have ht := h.touches hf
    exact ht.trans (h'.touches (hf.touches ht))

instance : IsPreorder (St γ) (Inside lo hi) where
  refl := Inside.refl
  trans _ _ _ := Inside.trans

theorem Touches.inside {s t : St γ} (h : Touches lo hi s t) : Inside lo hi s t :=
  ⟨h.book, h.calls, fun _ => h⟩

theorem Quiet.inside {s t : St γ} (h : Quiet s t) : Inside lo hi s t := h.touches.inside

theorem inside_of_quiet {α : Type} {m : M γ α} {X : Halt → Prop} {V : α → Prop}
    (h : Yields Quiet X V m) (hx : ∀ e, X e → Forced w e) :
    Yields (Inside lo hi) (Forced w) V m :=
  h.mono (fun _ _ => Quiet.inside) hx fun _ hv => hv

theorem store_inside {a : Nat} {v : UInt8} (ha : a ∈ Set.Ico lo hi) :
    Yields (Inside lo hi) (Forced w) (fun _ => True) (store a v : M γ PUnit) := by
  intro s
  refine ⟨Touches.inside ⟨rfl, ?_, ?_, fun _ h => .inl h, fun _ h => .inl h⟩, trivial⟩
  · intro b hb
    have hne : b ≠ a := by
      rintro rfl
      exact hb ha
    exact Function.update_of_ne hne v s.mem
  · intro e he
    rcases List.mem_cons.mp he with rfl | he
    · exact .inr ⟨rfl, ha⟩
    · exact .inl he

theorem touchSimple_inside {a : Nat} (ha : a ∈ Set.Ico lo hi) :
    Yields (Inside lo hi) (Forced w) (fun _ => True) (touchSimple a : M γ PUnit) :=
  yields_bind yields_get fun _ _ => yields_ite (fun _ => store_inside ha) fun _ => store_inside ha

theorem patternSeq_inside {addr len : Nat} (hl : lo ≤ addr) (hh : addr + len ≤ hi) :
    Yields (Inside lo hi) (Forced w) (fun _ => True) (patternSeq addr len : M γ PUnit) :=
  yields_upTo fun i hi => touchSimple_inside ⟨by omega, by omega⟩

theorem fixExists_mem {head : List FixNode} {addr : Nat} {node : FixNode}
    (h : fixExists head addr = some node) : node ∈ head ∧ node.addr = addr :=
  ⟨List.mem_of_find?_eq_some h, by simpa using List.find?_some h⟩

/-- A location was picked for a new mapping, and its byte written. -/
structure SitePicked (addr loc : Nat) (s t : St γ) : Prop where
  book : t.toBook = s.toBook
  head : t.fixHead = ⟨addr, loc⟩ :: s.fixHead
  mem : t.mem = Function.update s.mem (addr + loc) 0x00
  writes : t.writes = (s.curr, addr + loc) :: s.writes
  calls : CallsSafe s t

theorem fixRandLoc_chooses {addr len : Nat} (hl : 10 ≤ len) (hh : len < 2 ^ 64) (s : St γ) :
    Ends (fixRandLoc w addr len) { s with fixHead := ⟨addr, 0⟩ :: s.fixHead }
      (fun _ t => ∃ loc, loc ≤ len - 10 ∧ SitePicked addr loc s t) fun _ _ => False := by
  have hsub : wrapSub len 10 = len - 10 := wrapSub_of_le (by omega) (by omega)
  unfold fixRandLoc
  rw [ends_bind, hsub]
  refine (randIntr_quiet (w := w) (X := fun _ => False) (Nat.zero_le (len - 10)) (by omega)
    (by omega) _).mono ?_ fun _ _ he => he.2
  intro loc t hq'
  obtain ⟨hq, _, hloc⟩ := hq'
  have hhead : t.fixHead = ⟨addr, 0⟩ :: s.fixHead := hq.fixHead
  have hmem : t.mem = s.mem := hq.mem
  have hwrites : t.writes = s.writes := hq.writes
  have hcurr : t.curr = s.curr := hq.curr
  rw [if_neg (by omega)]
  simp only [ends_bind, ends_modify, store]
  refine ⟨loc, hloc, hq.book, ?_, by rw [hmem], by rw [hwrites, hcurr], hq.calls⟩
  rw [hhead, List.tail_cons]

/-- The location lies inside the mapping. -/
theorem SitePicked.touches {addr len loc : Nat} {s t : St γ} (h : SitePicked addr loc s t)
    (hl : 10 ≤ len) (hloc : loc ≤ len - 10) : Touches addr (addr + len) s t := by
  refine ⟨h.book, ?_, ?_, ?_, h.calls⟩
  · intro b hb
    have hne : b ≠ addr + loc := by
      rintro rfl
      exact hb ⟨by omega, by omega⟩
    rw [h.mem, Function.update_of_ne hne]
  · intro e he
    rw [h.writes] at he
    rcases List.mem_cons.mp he with rfl | he
    · exact .inr ⟨rfl, by omega, by simp only; omega⟩
    · exact .inl he
  · intro node hn
    rw [h.head] at hn
    rcases List.mem_cons.mp hn with rfl | hn
    · exact .inr ⟨rfl, by simp only; omega⟩
    · exact .inl hn

theorem patternFix_inside {addr len : Nat} (hl : 10 ≤ len) (hh : len < 2 ^ 64) :
    Yields (Inside addr (addr + len)) (Forced w) (fun _ => True) (patternFix w addr len) := by
  unfold patternFix
  refine yields_ite (fun _ => yields_pure trivial) fun _ => ?_
  intro s
  simp only [ends_bind, ends_get]
  cases hf : fixExists s.fixHead addr with
  | some node =>
    obtain ⟨hm, ha⟩ := fixExists_mem hf
    by_cases hok : FixOk addr (addr + len) s
    · have hin : node.addr + node.loc ∈ Set.Ico addr (addr + len) :=
        ⟨by omega, ha ▸ hok node hm ha⟩
      exact touchSimple_inside hin s
    · have hany : Yields (Inside 0 (node.addr + node.loc + 1)) (Forced w) (fun _ => True)
          (touchSimple (node.addr + node.loc) : M γ PUnit) :=
        touchSimple_inside ⟨Nat.zero_le _, Nat.lt_succ_self _⟩
      refine (hany s).mono ?_ ?_
      · exact fun _ _ h => ⟨⟨h.1.book, h.1.calls, fun h' => absurd h' hok⟩, h.2⟩
      · exact fun _ _ h => ⟨⟨h.1.book, h.1.calls, fun h' => absurd h' hok⟩, h.2⟩
  | none =>
    simp only [ends_bind, fixAllocNode, ends_get]
    cases hmal : w.malloc (s.fixHead.length + 1) with
    | false =>
      simp only [Bool.false_eq_true, if_false, ends_pure, ends_throw]
      exact ⟨Inside.refl s, .malloc hmal⟩
    | true =>
      simp only [if_true, ends_bind, ends_set, ends_pure]
      refine (fixRandLoc_chooses hl hh s).mono ?_ fun _ _ h => h.elim
      intro _ t hq
      obtain ⟨loc, hloc, hpicked⟩ := hq
      exact ⟨(hpicked.touches hl hloc).inside, trivial⟩

/-- The divisor is at most halved down to one, where the quotient is `len`. -/
theorem strideLoop_quiet {X : Halt → Prop} {len : Nat} (hl : 1 ≤ len) (n : Nat) {piece : Nat}
    (hp : piece ≠ 0) (hn : piece < 2 ^ n) :
    Yields Quiet X (fun v => 1 ≤ v ∧ v ≤ len) (strideLoop len n piece : M γ Nat) := by
  induction n generalizing piece with
  | zero => omega
  | succ n ih =>
    refine yields_bind (defined_yields hp) fun _ _ => yields_ite (fun h => ?_) fun h => ?_
    · have hlt : len < piece := (Nat.div_eq_zero_iff.mp h).resolve_left hp
      exact ih (by omega) (by omega)
    · exact yields_pure ⟨Nat.one_le_iff_ne_zero.mpr h, Nat.div_le_self len piece⟩

theorem strideGetOffset_quiet {X : Halt → Prop} {len : Nat} (hl : 1 ≤ len) :
    Yields Quiet X (fun v => 1 ≤ v ∧ v ≤ len) (strideGetOffset len : M γ Nat) :=
  yields_bind (note_quiet fun _ => hl) fun _ _ =>
    strideLoop_quiet hl 11 (by decide) (by decide)

/-- Whatever its index wraps to, the stride pattern stays inside. -/
theorem patternStrideLoop_window (w : World γ) (addr len stride n i : Nat) :
    Yields (Inside addr (addr + len)) (fun _ => True) (fun _ => True)
      (patternStrideLoop addr len stride n i : M γ PUnit) := by
  induction n generalizing i with
  | zero => exact yields_throw trivial
  | succ n ih =>
    refine yields_ite (fun h => ?_) fun _ => yields_pure trivial
    have hin : addr + i ∈ Set.Ico addr (addr + len) := ⟨by omega, by omega⟩
    exact yields_seq (touchSimple_inside (w := w) hin).anyhow fun _ => ih _

theorem patternStrideLoop_inside {addr len stride : Nat} (hs : 1 ≤ stride) (hs' : stride ≤ len)
    (hh : len < 2 ^ 63) (n i : Nat) (hn : len - i < n) :
    Yields (Inside addr (addr + len)) (Forced w) (fun _ => True)
      (patternStrideLoop addr len stride n i : M γ PUnit) := by
  induction n generalizing i with
  | zero => omega
  | succ n ih =>
    refine yields_ite (fun h => ?_) fun _ => yields_pure trivial
    have hw : wrap (i + stride) = i + stride := wrap_of_lt (by omega)
    refine yields_bind (touchSimple_inside ⟨by omega, by omega⟩) fun _ _ => ?_
    exact ih _ (by omega)

theorem patternStride_inside {addr len : Nat} (hl : 1 ≤ len) (hh : len < 2 ^ 63) :
    Yields (Inside addr (addr + len)) (Forced w) (fun _ => True)
      (patternStride addr len : M γ PUnit) :=
  yields_bind (inside_of_quiet (strideGetOffset_quiet (X := fun _ => False) hl) fun _ h => h.elim)
    fun _ hs => patternStrideLoop_inside hs.1 hs.2 hh _ _ (by omega)

theorem patternRepeat_inside {addr len : Nat} (hl : 1 ≤ len) :
    Yields (Inside addr (addr + len)) (Forced w) (fun _ => True)
      (patternRepeat addr len : M γ PUnit) :=
  yields_bind (inside_of_quiet (strideGetOffset_quiet (X := fun _ => False) hl) fun _ h => h.elim)
    fun _ hs => yields_times (yields_upTo fun _ hi => touchSimple_inside ⟨by omega, by omega⟩) _

/-- The ten bytes of an attempt end within the last twenty of the window, so
what a touch of each byte of the window keeps, its attempts keep. -/
theorem randomTouchPage_yields {R : St γ → St γ → Prop} [IsPreorder (St γ) R]
    (hquiet : ∀ s t, Quiet s t → R s t) {addr len : Nat} (hl : 21 ≤ len) (hr : len < randMax)
    (htouch : ∀ a ∈ Set.Ico addr (addr + len),
      Yields R (Forced w) (fun _ => True) (touchSimple a : M γ PUnit)) :
    Yields R (Forced w) (fun _ => True) (randomTouchPage w addr len) := by
  have hlim : toLong (wrapSub len 20) = (len : Int) - 20 := by
    have hr' : len < 2147483647 := hr
    have hw : wrapSub len 20 = len - 20 := wrapSub_of_le (by omega) (by omega)
    rw [hw, toLong, if_pos (by omega)]
    omega
  refine yields_bind yields_get fun s _ => yields_times ?_ _
  rw [hlim]
  have hlow : 1 ≤ (len : Int) - 20 := by omega
  have hhigh : (len : Int) - 20 < randMax := by omega
  have hdraw := (randLim_quiet (w := w) hlow hhigh).mono hquiet (fun _ he => he) fun _ hv => hv
  refine yields_bind hdraw ?_
  intro index hi
  have hx : ofLong index < len - 20 := by
    simp only [ofLong]
    omega
  exact yields_upTo fun i hi => htouch _ ⟨by omega, by omega⟩

theorem patternRand_inside (hp : w.pageSize = 4096) {addr len : Nat} (hl : 4096 ≤ len)
    (hh : len < 2 ^ 64) :
    Yields (Inside addr (addr + len)) (Forced w) (fun _ => True) (patternRand w addr len) := by
  apply patternRand_yields hp hl hh
  intro win hwin
  have hin : win.1 + win.2 ≤ len ∧ 21 ≤ win.2 ∧ win.2 < 8192 := by
    rcases hwin with hwin | hwin
    · have hslice := mem_windows (by omega) hwin
      omega
    · have hslice := mem_windows (by omega) hwin
      omega
  apply randomTouchPage_yields (R := Inside addr (addr + len)) (fun _ _ => Quiet.inside) hin.2.1
  · simp only [randMax]
    omega
  · intro a ha
    have hlow := ha.1
    have hhigh := ha.2
    exact touchSimple_inside ⟨by omega, by omega⟩

/-- Every access pattern stays inside a mapping of at least a page. -/
theorem pattern_inside (hp : w.pageSize = 4096) (addr : Nat) {k len : Nat} (hk : k < 5)
    (hl : 4096 ≤ len) (hh : len < 2 ^ 63) :
    Yields (Inside addr (addr + len)) (Forced w) (fun _ => True) (pattern w k addr len) := by
  match k, hk with
  | 0, _ => exact patternFix_inside (by omega) (by omega)
  | 1, _ => exact patternStride_inside (by omega) hh
  | 2, _ => exact patternSeq_inside (Nat.le_refl _) (Nat.le_refl _)
  | 3, _ => exact patternRepeat_inside (by omega)
  | 4, _ => exact patternRand_inside hp hl (by omega)

/-- On a mapping of 2^63 bytes or more the stride pattern may go round, and so
not end; it stays inside all the same. -/
theorem pattern_window (hp : w.pageSize = 4096) (addr : Nat) {k len : Nat} (hk : k < 5)
    (hl : 4096 ≤ len) (hh : len < 2 ^ 64) :
    Yields (Inside addr (addr + len)) (fun _ => True) (fun _ => True) (pattern w k addr len) := by
  by_cases hshort : len < 2 ^ 63
  · exact (pattern_inside hp addr hk hl hshort).anyhow
  · match k, hk with
    | 0, _ => exact (patternFix_inside (w := w) (by omega) hh).anyhow
    | 1, _ =>
      have hs : Yields (Inside addr (addr + len)) (Forced w) (fun v => 1 ≤ v ∧ v ≤ len)
          (strideGetOffset len : M γ Nat) :=
        inside_of_quiet (strideGetOffset_quiet (X := fun _ => False) (by omega)) fun _ h => h.elim
      exact yields_bind hs.anyhow fun _ _ => patternStrideLoop_window w addr len _ _ _
    | 2, _ => exact (patternSeq_inside (w := w) (Nat.le_refl _) (Nat.le_refl _)).anyhow
    | 3, _ => exact (patternRepeat_inside (w := w) (by omega)).anyhow
    | 4, _ => exact (patternRand_inside hp hl hh).anyhow

end Gobbler.Proofs
