import Gobbler.Proofs.Frame
import Gobbler.Proofs.Pattern

namespace Gobbler.Proofs
open Effect

variable {γ : Type} {w : World γ}

/-- The list of the current phase. -/
def current (b : Book) : List AllocRec := b.allocTrack b.curr.toNat

def InTracker (b : Book) : Prop := 0 ≤ b.curr ∧ b.curr < maxAlloc

/-- The mappings of the current phase have the lengths that every access
pattern is safe for. -/
structure Sized (w : World γ) (b : Book) : Prop where
  page : w.pageSize = 4096
  access : b.accessType < 5
  size : ∀ r ∈ current b, 4096 ≤ r.len ∧ r.len < 2 ^ 63

/-- The mappings of the current phase have lengths for which the arithmetic of
every access pattern is safe. -/
structure Usable (w : World γ) (b : Book) : Prop where
  page : w.pageSize = 4096
  access : b.accessType < 5
  size : ∀ r ∈ current b, 4096 ≤ r.len ∧ r.len < 2 ^ 64

/-- The fix pattern remembers no location outside a mapping of the current
phase, and no two of these begin at the same address. -/
structure FixSound (b : Book) (head : List FixNode) : Prop where
  apart : ∀ r ∈ current b, ∀ r' ∈ current b, r.addr = r'.addr → r = r'
  inside : ∀ r ∈ current b, ∀ node ∈ head, node.addr = r.addr → node.loc < r.len

/-- An address inside a mapping of the current phase. -/
def Covered (b : Book) (a : Nat) : Prop := ∃ r ∈ current b, a ∈ Set.Ico r.addr (r.addr + r.len)

/-- From `s` to `t` only bytes in mappings of the phase current in `t` were written. -/
structure Wrote (s t : St γ) : Prop where
  mem : ∀ a, ¬Covered t.toBook a → t.mem a = s.mem a
  writes : ∀ e ∈ t.writes, e ∈ s.writes ∨ (e.1 = t.curr ∧ Covered t.toBook e.2)
  fix : ∀ node ∈ t.fixHead, node ∈ s.fixHead ∨
    ∃ r ∈ current t.toBook, node.addr = r.addr ∧ node.loc < r.len
  calls : CallsSafe s t

theorem Wrote.refl (s : St γ) : Wrote s s :=
  ⟨fun _ _ => rfl, fun _ h => .inl h, fun _ h => .inl h, fun _ h => .inl h⟩

theorem Wrote.trans {s t u : St γ} (h : Wrote s t) (h' : Wrote t u) (hc : u.curr = t.curr)
    (ht : current u.toBook = current t.toBook) (hl : t.fileLst.length = s.fileLst.length) :
    Wrote s u := by
  refine ⟨?_, ?_, ?_, h.calls.trans hl h'.calls⟩
  · intro a ha
    refine (h'.mem a ha).trans (h.mem a ?_)
    simpa only [Covered, ht] using ha
  · intro e he
    rcases h'.writes e he with hm | hn
    · simpa only [Covered, ht, hc] using h.writes e hm
    · exact .inr hn
  · intro node hn
    rcases h'.fix node hn with hm | hi
    · simpa only [ht] using h.fix node hm
    · exact .inr hi

theorem Kept.curr {s t : St γ} (h : Kept s t) : t.curr = s.curr :=
  congrArg (fun b : Book => b.curr) h.book

theorem Kept.current {s t : St γ} (h : Kept s t) : current t.toBook = current s.toBook :=
  congrArg Proofs.current h.book

theorem Touches.wrote {s t : St γ} {r : AllocRec} (h : Touches r.addr (r.addr + r.len) s t)
    (hr : r ∈ current s.toBook) : Wrote s t := by
  have hb : t.toBook = s.toBook := h.book
  have hc : t.curr = s.curr := congrArg (fun b : Book => b.curr) hb
  refine ⟨?_, ?_, ?_, h.calls⟩
  · intro a ha
    exact h.mem a fun hin => ha ⟨r, hb ▸ hr, hin⟩
  · intro e he
    rcases h.writes e he with hm | ⟨hp, hin⟩
    · exact .inl hm
    · exact .inr ⟨hc ▸ hp, r, hb ▸ hr, hin⟩
  · intro node hn
    rcases h.fix node hn with hm | ⟨ha, hlt⟩
    · exact .inl hm
    · exact .inr ⟨r, hb ▸ hr, ha, by omega⟩

/-- Writing keeps the fix pattern sound. -/
theorem FixSound.wrote {s t : St γ} (h : FixSound s.toBook s.fixHead) (hw : Wrote s t)
    (hb : t.toBook = s.toBook) : FixSound t.toBook t.fixHead := by
  rw [hb]
  refine ⟨h.apart, ?_⟩
  intro r hr node hn ha
  rcases hw.fix node hn with hm | ⟨r', hr', ha', hlt⟩
  · exact h.inside r hr node hm ha
  · have heq : r' = r := h.apart r' (hb ▸ hr') r hr (ha'.symm.trans ha)
    exact heq ▸ hlt

/-- How a touch may end early. -/
inductive Trouble (w : World γ) (b : Book) : Halt → Prop
  | touch {h : Halt} (why : TouchHalt h) (sized : Sized w b → Forced w h) : Trouble w b h
  | track (h : ¬InTracker b) : Trouble w b (.undefined .trackIndex)

/-- What a touch does: it keeps the books, and writes only where it should. -/
structure Touched (w : World γ) (s t : St γ) : Prop where
  kept : Kept s t
  calls : Usable w s.toBook → CallsSafe s t
  wrote : Sized w s.toBook → FixSound s.toBook s.fixHead → Wrote s t

theorem Touched.refl (s : St γ) : Touched w s s :=
  ⟨Kept.refl s, fun _ _ h => .inl h, fun _ _ => Wrote.refl s⟩

theorem Touched.trans {s t u : St γ} (h : Touched w s t) (h' : Touched w t u) : Touched w s u := by
  have hb : t.toBook = s.toBook := h.kept.book
  have hl : t.fileLst.length = s.fileLst.length := congrArg (fun b : Book => b.fileLst.length) hb
  refine ⟨h.kept.trans h'.kept, fun hu => ?_, fun hs hf => ?_⟩
  · exact (h.calls hu).trans hl (h'.calls (hb ▸ hu))
  · have hw := h.wrote hs hf
    exact hw.trans (h'.wrote (hb ▸ hs) (hf.wrote hw hb)) h'.kept.curr h'.kept.current hl

theorem currTrack_ends (s : St γ) :
    Ends currTrack s (fun lst t => t = s ∧ lst = current s.toBook ∧ InTracker s.toBook)
      (fun e t => t = s ∧ e = .undefined .trackIndex ∧ ¬InTracker s.toBook) := by
  unfold currTrack defined
  by_cases hc : 0 ≤ s.curr ∧ s.curr < maxAlloc
  · simp only [ends_bind, ends_get, if_pos hc, ends_pure]
    exact ⟨trivial, rfl, hc⟩
  · simp only [ends_bind, ends_get, if_neg hc, ends_throw]
    exact ⟨trivial, trivial, hc⟩

theorem Sized.usable {b : Book} (h : Sized w b) : Usable w b := by
  refine ⟨h.page, h.access, fun r hr => ?_⟩
  have hsize := h.size r hr
  omega

/-- An access pattern on a mapping of the current phase. -/
theorem pattern_ends {r : AllocRec} {s : St γ} (hr : r ∈ current s.toBook) :
    Ends (pattern w s.accessType r.addr r.len) s (fun _ t => Touched w s t)
      (fun e t => Touched w s t ∧ Trouble w s.toBook e) := by
  have hkept := pattern_kept (w := w) s.accessType r.addr r.len s
  have hfix : FixSound s.toBook s.fixHead → FixOk r.addr (r.addr + r.len) s := by
    intro hf node hn ha
    have hlt := hf.inside r hr node hn ha
    omega
  by_cases hu : Usable w s.toBook
  · have hwindow := pattern_window (w := w) hu.page r.addr hu.access (hu.size r hr).1
      (hu.size r hr).2 s
    have htouched : ∀ t, Kept s t → Inside r.addr (r.addr + r.len) s t → Touched w s t :=
      fun t hk hi => ⟨hk, fun _ => hi.calls, fun _ hf => (hi.touches (hfix hf)).wrote hr⟩
    by_cases hs : Sized w s.toBook
    · have hin := pattern_inside (w := w) hs.page r.addr hs.access (hs.size r hr).1
        (hs.size r hr).2 s
      refine (hkept.and hin).mono ?_ ?_
      · intro _ t hq
        obtain ⟨⟨hk, _⟩, hi, _⟩ := hq
        exact htouched t hk hi
      · intro e t hq
        obtain ⟨⟨hk, hx⟩, hi, hp⟩ := hq
        exact ⟨htouched t hk hi, .touch hx fun _ => hp⟩
    · refine (hkept.and hwindow).mono ?_ ?_
      · intro _ t hq
        obtain ⟨⟨hk, _⟩, hi, _⟩ := hq
        exact htouched t hk hi
      · intro e t hq
        obtain ⟨⟨hk, hx⟩, hi, _⟩ := hq
        exact ⟨htouched t hk hi, .touch hx fun h => absurd h hs⟩
  · have hs : ¬Sized w s.toBook := fun h => hu h.usable
    have htouched : ∀ t, Kept s t → Touched w s t :=
      fun t hk => ⟨hk, fun h => absurd h hu, fun h => absurd h hs⟩
    refine hkept.mono ?_ ?_
    · intro _ t hq
      obtain ⟨hk, _⟩ := hq
      exact htouched t hk
    · intro e t hq
      obtain ⟨hk, hx⟩ := hq
      exact ⟨htouched t hk, .touch hx fun h => absurd h hs⟩

theorem touch_ends (i : Nat) (s : St γ) :
    Ends (touch w i) s (fun _ t => Touched w s t)
      (fun e t => Touched w s t ∧ Trouble w s.toBook e) := by
  unfold touch
  simp only [ends_bind, ends_get]
  rw [ends_ite]
  refine ⟨fun _ => ?_, fun _ => Touched.refl s⟩
  rw [ends_bind]
  refine (currTrack_ends s).mono ?_ ?_
  · intro lst t hq
    obtain ⟨ht, hlst, _⟩ := hq
    subst ht hlst
    cases hr : (current t.toBook)[i]? with
    | none => exact Touched.refl t
    | some r => exact pattern_ends (List.mem_of_getElem? hr)
  · intro e t hq
    obtain ⟨ht, he, hout⟩ := hq
    subst ht he
    exact ⟨Touched.refl t, .track hout⟩

theorem loopN_ends (n : Nat) (s : St γ) :
    Ends (loopN w n) s (fun _ t => Touched w s t)
      (fun e t => Touched w s t ∧ Trouble w s.toBook e) := by
  unfold loopN
  induction n generalizing s with
  | zero => exact Touched.refl s
  | succ n ih =>
    unfold times
    rw [ends_bind, ends_bind]
    refine (currTrack_ends s).mono ?_ ?_
    · intro lst t hq
      obtain ⟨ht, _⟩ := hq
      subst ht
      apply (touch_ends _ t).imp
      intro _ u hu
      refine (ih u).mono (fun _ v hv => hu.trans hv) ?_
      intro e v hq
      obtain ⟨hv, he⟩ := hq
      exact ⟨hu.trans hv, hu.kept.book ▸ he⟩
    · intro e t hq
      obtain ⟨ht, he, hout⟩ := hq
      subst ht he
      exact ⟨Touched.refl t, .track hout⟩

end Gobbler.Proofs
