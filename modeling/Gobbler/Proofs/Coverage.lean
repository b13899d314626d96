import Gobbler.Proofs.Attempts

namespace Gobbler.Proofs
open Effect Draws

variable {γ : Type} {w : World γ} {addr m p x : Nat} {win : Nat × Nat}

/-- The bytes of a page of the mapping. -/
def page (addr p : Nat) : Set Nat := Set.Ico (addr + 4096 * p) (addr + 4096 * (p + 1))

/-- There are random outcomes for which `pattern_rand` writes a byte of the page. -/
def Reaches (addr len p : Nat) (s : St γ) : Prop :=
  ∃ w : World γ, w.pageSize = 4096 ∧ Ends (patternRand w addr len) s
    (fun _ t => ∃ as, Visits as s t ∧ ∃ a ∈ as, a ∈ page addr p) fun _ _ => False

/-- One of the windows that `pattern_rand` visits. -/
def Visited (len : Nat) (win : Nat × Nat) : Prop :=
  win ∈ windows 0 (len / 2) ∨ win ∈ windows (len / 2) len

/-- Up to three pages give slices of one window, from which 1000 bytes are cut. -/
theorem visited_short (hm : m < 4) : Visited (4096 * m) win ↔
    win = (0, 2048 * m - 1000) ∨ win = (2048 * m, 2048 * m - 1000) := by
  have hhalf : 4096 * m / 2 = 2048 * m := by omega
  have hfirst : 2048 * m < 8192 := by omega
  have hsecond : 4096 * m - 2048 * m < 8192 := by omega
  have hlen : 4096 * m - 1000 - 2048 * m = 2048 * m - 1000 := by omega
  simp only [Visited, hhalf, windows, Nat.sub_zero, if_pos hfirst, if_pos hsecond, hlen,
    List.mem_singleton]

/-- More pages give slices with windows of whole pages. -/
theorem visited_pages (hm : 4 ≤ m) : Visited (4096 * m) win ↔
    ∃ i, i < (2048 * m - 1) / 4096 ∧ (win = (4096 * i, 4096) ∨ win = (2048 * m + 4096 * i, 4096)) := by
  have hhalf : 4096 * m / 2 = 2048 * m := by omega
  have hfirst : ¬2048 * m < 8192 := by omega
  have hsecond : ¬4096 * m - 2048 * m < 8192 := by omega
  have hcount : 4096 * m - 2048 * m - 1 = 2048 * m - 1 := by omega
  simp only [Visited, hhalf, windows, Nat.sub_zero, if_neg hfirst, if_neg hsecond, hcount,
    List.mem_map, List.mem_range'_1, Nat.zero_le, Nat.zero_add, true_and, eq_comm (b := win),
    ← exists_or, ← and_or_left]

/-- With an odd number of pages, or two, no page is left out. -/
theorem exists_window (hodd : m % 2 = 1 ∨ m = 2) (hp : p < m) :
    ∃ start size x, Visited (4096 * m) (start, size) ∧ x + 20 < size ∧ start + x ∈ page 0 p := by
  simp only [page, Set.mem_Ico]
  by_cases hshort : m < 4
  · have hfirst : Visited (4096 * m) (0, 2048 * m - 1000) := (visited_short hshort).mpr (.inl rfl)
    have hsecond : Visited (4096 * m) (2048 * m, 2048 * m - 1000) :=
      (visited_short hshort).mpr (.inr rfl)
    by_cases hhead : p = 0
    · exact ⟨_, _, 0, hfirst, by omega, by omega⟩
    · by_cases hlast : p = 2
      · exact ⟨_, _, 2048, hsecond, by omega, by omega⟩
      · exact ⟨_, _, 0, hsecond, by omega, by omega⟩
  · have hlong : 4 ≤ m := Nat.le_of_not_lt hshort
    have hfirst : ∀ i, i < (2048 * m - 1) / 4096 → Visited (4096 * m) (4096 * i, 4096) :=
      fun i hi => (visited_pages hlong).mpr ⟨i, hi, .inl rfl⟩
    have hsecond : ∀ i, i < (2048 * m - 1) / 4096 → Visited (4096 * m) (2048 * m + 4096 * i, 4096) :=
      fun i hi => (visited_pages hlong).mpr ⟨i, hi, .inr rfl⟩
    -- the windows of the second slice begin in the middle of a page
    by_cases hlow : p < m / 2
    · exact ⟨_, _, 0, hfirst p (by omega), by decide, by omega⟩
    · by_cases hlast : p = m - 1
      · exact ⟨_, _, 2048, hsecond (m / 2 - 1) (by omega), by decide, by omega⟩
      · exact ⟨_, _, 0, hsecond (p - m / 2) (by omega), by decide, by omega⟩

/-- With four pages or more, and an even number, the last page of the first half
lies beyond its windows. -/
theorem window_apart (hm : 2 ≤ m) (h : Visited (4096 * (2 * m)) win) :
    win.1 + win.2 ≤ 4096 * (m - 1) ∨ 4096 * m ≤ win.1 := by
  obtain ⟨i, hi, rfl | rfl⟩ := (visited_pages (by omega)).mp h
  · simp only
    omega
  · simp only
    omega

/-- The windows of a mapping have one length. -/
theorem visited_size {win' : Nat × Nat} (h : Visited (4096 * m) win) (h' : Visited (4096 * m) win') :
    win.2 = win'.2 ∧ win.2 < 8192 := by
  by_cases hshort : m < 4
  · have hsize : ∀ win, Visited (4096 * m) win → win.2 = 2048 * m - 1000 := by
      intro win hwin
      obtain rfl | rfl := (visited_short hshort).mp hwin <;> rfl
    rw [hsize win h, hsize win' h']
    omega
  · have hsize : ∀ win, Visited (4096 * m) win → win.2 = 4096 := by
      intro win hwin
      obtain ⟨i, _, rfl | rfl⟩ := (visited_pages (Nat.le_of_not_lt hshort)).mp hwin <;> rfl
    rw [hsize win h, hsize win' h']
    decide

/-- A machine whose generator gives one value only. -/
def constantWorld (v : Nat) (h : v ≤ randMax) : World γ :=
  drawingWorld (fun _ g => g) (fun g => (v, g)) (fun _ => h) plainWorld.cpu

theorem constantWorld_sequence {v : Nat} (h : v ≤ randMax) (g : γ) (seed k : Nat) :
    sequence (constantWorld v h) g seed k = v := by
  change outputs (fun g : γ => (v, g)) g k = v
  induction k with
  | zero => rfl
  | succ k ih => exact ih

/-- There is a value that falls in a given bucket. -/
theorem exists_bucket {limit : Nat} (hx : x < limit) (hr : limit < randMax) :
    ∃ v, v ≤ randMax ∧ bucket limit v = x := by
  have hpos : 0 < randMax / (limit + 1) := Nat.div_pos (by omega) (Nat.succ_pos limit)
  refine ⟨x * (randMax / (limit + 1)), ?_, Nat.mul_div_cancel x hpos⟩
  have hle : x * (randMax / (limit + 1)) ≤ (limit + 1) * (randMax / (limit + 1)) :=
    Nat.mul_le_mul_right _ (by omega)
  exact hle.trans (Nat.mul_div_le randMax (limit + 1))

section constant

variable {size v : Nat} (hv : v ≤ randMax) (hx : x + 20 < size) (hr : size < randMax)
  (hb : bucket (size - 20) v = x)
include hx hr hb

/-- Then every attempt in a window touches the same byte. -/
theorem randomTouchPage_hits (start : Nat) :
    Does Visits (start + x ∈ ·) (randomTouchPage (constantWorld v hv : World γ) start size) := by
  intro s
  have hrestarts : Restarts (constantWorld v hv : World γ) := by
    intro seed g g'
    funext k
    rw [constantWorld_sequence, constantWorld_sequence]
  unfold randomTouchPage
  rw [ends_bind, ends_get]
  refine (attempts_end hrestarts s.gen (by omega) hr _ s).mono ?_ ?_
  · intro _ t hq
    obtain ⟨offsets, hlen, hvisits, hfirsts⟩ := hq
    refine ⟨_, ?_, hvisits⟩
    cases offsets with
    | nil =>
      simp only [List.length_nil, maxAtt] at hlen
      split at hlen <;> omega
    | cons o offsets =>
      obtain ⟨k, _, rfl⟩ := hfirsts 0 o rfl
      rw [constantWorld_sequence, hb, List.flatMap_cons]
      exact List.mem_append_left _ List.mem_cons_self
  · intro _ _ hq
    obtain ⟨i, _, hnone⟩ := hq
    apply hnone 0 Nat.one_pos
    rw [constantWorld_sequence, Accepted, hb]
    omega

theorem visitWindows_hits {wins : List (Nat × Nat)} (hsize : ∀ win ∈ wins, win.2 = size) :
    Does Visits (fun as => ∀ win ∈ wins, addr + win.1 + x ∈ as)
      (visitWindows (constantWorld v hv : World γ) addr wins) := by
  induction wins with
  | nil => exact fun s => ⟨[], nofun, Visits.refl s⟩
  | cons win wins ih =>
    obtain ⟨hhead, hrest⟩ := List.forall_mem_cons.mp hsize
    have hfirst := randomTouchPage_hits (γ := γ) hv hx hr hb (addr + win.1)
    rw [← hhead] at hfirst
    refine does_bind hfirst (fun _ => ih hrest) fun as bs has hbs => ?_
    exact List.forall_mem_cons.mpr
      ⟨List.mem_append_left _ has, fun win hwin => List.mem_append_right _ (hbs win hwin)⟩

end constant

/-- A byte of a window that leaves room for an attempt can be touched. -/
theorem reaches_of_window (hm : 0 < m) (hlt : 4096 * m < 2 ^ 64) {start size : Nat}
    (hwin : Visited (4096 * m) (start, size)) (hx : x + 20 < size) (hp : start + x ∈ page 0 p)
    (addr : Nat) (s : St γ) : Reaches addr (4096 * m) p s := by
  have hsize : size < 8192 := (visited_size hwin hwin).2
  have hr : size < randMax := by
    simp only [randMax]
    omega
  have hroom : x < size - 20 := by omega
  obtain ⟨v, hv, hb⟩ := exists_bucket hroom (by omega)
  have hall : ∀ win ∈ rounds (4096 * m) (if s.inTransition then 2 else 10) false, win.2 = size :=
    fun win hw => (visited_size (mem_rounds hw) hwin).1
  have hin : (start, size) ∈ rounds (4096 * m) (if s.inTransition then 2 else 10) false := by
    split
    · exact mem_rounds_two (n := 0) hwin
    · exact mem_rounds_two (n := 8) hwin
  refine ⟨constantWorld v hv, rfl, ?_⟩
  rw [ends_congr (patternRand_eq rfl (by omega) hlt s)]
  apply (visitWindows_hits hv hx hr hb hall s).imp
  intro _ t hq
  obtain ⟨as, has, hvisits⟩ := hq
  have hbyte := has (start, size) hin
  obtain ⟨hlow, hhigh⟩ := hp
  exact ⟨as, hvisits, _, hbyte, by simp only; omega, by simp only; omega⟩

/-- No byte of a set was written. -/
def Spares (S : Set Nat) (s t : St γ) : Prop := ∃ as, Visits as s t ∧ ∀ a ∈ as, a ∉ S

instance (S : Set Nat) : IsPreorder (St γ) (Spares S) where
  refl s := ⟨[], Visits.refl s, nofun⟩
  trans s t u h h' := by
    obtain ⟨as, has, hnot⟩ := h
    obtain ⟨bs, hbs, hnot'⟩ := h'
    refine ⟨as ++ bs, has.append hbs, fun a ha => ?_⟩
    rcases List.mem_append.mp ha with ha | ha
    · exact hnot a ha
    · exact hnot' a ha

theorem touchSimple_spares {S : Set Nat} {a : Nat} (h : a ∉ S) (s : St γ) :
    Ends (touchSimple a) s (fun _ t => Spares S s t) fun _ _ => False := by
  apply ((touchSimple_visits a).ends s).imp
  intro _ t ht
  exact ⟨[a], ht, fun b hb => List.mem_singleton.mp hb ▸ h⟩

/-- With an even number of pages, at least four, the last page of the first half
is left out, whatever is drawn. -/
theorem patternRand_spares (hps : w.pageSize = 4096) (hm : 2 ≤ m) (hlt : 4096 * (2 * m) < 2 ^ 64) :
    Yields (Spares (page addr (m - 1))) (Forced w) (fun _ => True)
      (patternRand w addr (4096 * (2 * m))) := by
  apply patternRand_yields hps (by omega) hlt
  intro win hwin
  have hsize := (visited_size hwin hwin).2
  have hlong : 21 ≤ win.2 := by
    rcases hwin with hwin | hwin
    · exact (mem_windows (by omega) hwin).2.2.1
    · exact (mem_windows (by omega) hwin).2.2.1
  have hquiet : ∀ s t : St γ, Quiet s t → Spares (page addr (m - 1)) s t :=
    fun _ _ h => ⟨[], h.visits, nofun⟩
  apply randomTouchPage_yields hquiet hlong
  · simp only [randMax]
    omega
  · intro a ha s
    refine (touchSimple_spares ?_ s).mono (fun _ _ h => ⟨h, trivial⟩) fun _ _ he => he.elim
    intro hq
    obtain ⟨hlow, hhigh⟩ := hq
    obtain ⟨hlow', hhigh'⟩ := ha
    have hapart := window_apart hm hwin
    omega

theorem not_reaches (hm : 2 ≤ m) (hlt : 4096 * (2 * m) < 2 ^ 64) (addr : Nat) (s : St γ) :
    ¬Reaches addr (4096 * (2 * m)) (m - 1) s := by
  intro hq
  obtain ⟨w, hps, hends⟩ := hq
  have hboth := hends.and (patternRand_spares hps hm hlt s)
  obtain ⟨_, t, _, ⟨as, hvisits, a, ha, hin⟩, ⟨bs, hvisits', hnot⟩, _⟩ :=
    hboth.returns fun _ _ he => he.1
  obtain rfl := visits_eq hvisits hvisits'
  exact hnot a ha hin

/-- The random pattern can reach every page of a mapping just when the mapping has
an odd number of pages, or two. -/
theorem random_reaches (addr len : Nat) (hpos : 0 < len) (hdvd : 4096 ∣ len) (hlt : len < 2 ^ 64)
    (s : St γ) :
    (∀ p, p < len / 4096 → Reaches addr len p s) ↔ len / 4096 % 2 = 1 ∨ len = 8192 := by
  obtain ⟨m, rfl⟩ := hdvd
  rw [Nat.mul_div_cancel_left m (by decide)]
  constructor
  · intro hall
    by_contra hnot
    have heven : m = 2 * (m / 2) := by omega
    have hreach := hall (m / 2 - 1) (by omega)
    rw [heven] at hreach hlt
    rw [Nat.mul_div_cancel_left (m / 2) (by decide)] at hreach
    exact not_reaches (by omega) hlt addr s hreach
  · intro hodd p hp
    obtain ⟨start, size, x, hwin, hx, hin⟩ := exists_window (by omega) hp
    exact reaches_of_window (by omega) hlt hwin hx hin addr s

/-- All three pages of a mapping can be reached. -/
theorem random_reaches_three :
    let s : St Unit := initial smallTable (fun _ => 0) ()
    Reaches 1048576 12288 0 s ∧ Reaches 1048576 12288 1 s ∧ Reaches 1048576 12288 2 s := by
  have hiff := random_reaches 1048576 12288 (by decide) (by decide) (by decide)
    (initial smallTable (fun _ => 0) ())
  have hall := hiff.mpr (.inl (by decide))
  exact ⟨hall 0 (by decide), hall 1 (by decide), hall 2 (by decide)⟩

/-- The second page of four cannot. -/
theorem random_leaves_out : ¬Reaches 1048576 16384 1 (initial smallTable (fun _ => 0) ()) :=
  not_reaches (m := 2) (by decide) (by decide) 1048576 _

end Gobbler.Proofs
