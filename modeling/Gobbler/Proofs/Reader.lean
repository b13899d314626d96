import Gobbler.Proofs.Runs
import Gobbler.Proofs.Vector

namespace Gobbler.Proofs
open Effect

variable {γ : Type} {delim : Char}

/-- The lines of a file, each with its newline; the last one may lack it. -/
def vectorLines : List Char → List (List Char)
  | [] => []
  | c :: cs =>
    if c = '\n' then [c] :: vectorLines cs
    else match vectorLines cs with
      | [] => [[c]]
      | line :: lines => (c :: line) :: lines

/-- Before its first zero byte the line has a character of a first token, a
delimiter after it, and a character of a second token after that. -/
def Timed (delim : Char) (line : List Char) : Prop :=
  ∃ x y, x ≠ delim ∧ y ≠ delim ∧ [x, delim, y].Sublist (cString line)

/-- `n` calls of `get_nxt_alloc`. -/
def reads (isIpfvt : Bool) (n : Nat) : M γ PUnit :=
  times (do
    let _ ← getNxtAlloc isIpfvt
    return) n

/-- None of `n` reads of the file passes a missing token on. -/
def ReadsTotal (isIpfvt : Bool) (bytes : List Char) (n : Nat) : Prop :=
  ∀ (γ : Type) (s : St γ), s.vectorStream = bytes →
    Ends (reads isIpfvt n) s (fun _ _ => True) fun _ _ => False

theorem getline_cons {c : Char} (hc : c ≠ '\n') (cs : List Char) :
    getline (c :: cs) = match getline cs with
      | none => some ([c], [])
      | some (line, rest) => some (c :: line, rest) := by
  cases cs with
  | nil => simp [getline, hc]
  | cons d ds =>
    have htake : (c :: d :: ds).takeWhile (· ≠ '\n') = c :: (d :: ds).takeWhile (· ≠ '\n') :=
      List.takeWhile_cons_of_pos (by simpa using hc)
    have hdrop : (c :: d :: ds).dropWhile (· ≠ '\n') = (d :: ds).dropWhile (· ≠ '\n') :=
      List.dropWhile_cons_of_pos (by simpa using hc)
    cases hd : (d :: ds).dropWhile (· ≠ '\n') with
    | nil => simp only [getline, reduceCtorEq, if_false, htake, hdrop, hd]
    | cons e es => simp only [getline, reduceCtorEq, if_false, htake, hdrop, hd, List.cons_append]

theorem vectorLines_cons {c : Char} (hc : c ≠ '\n') (cs : List Char) :
    vectorLines (c :: cs) = match vectorLines cs with
      | [] => [[c]]
      | line :: lines => (c :: line) :: lines := by
  rw [vectorLines, if_neg hc]

/-- `getline` takes the lines one by one. -/
theorem getline_lines (s : List Char) :
    (getline s = none ∧ vectorLines s = []) ∨
      ∃ line rest, getline s = some (line, rest) ∧ vectorLines s = line :: vectorLines rest := by
  induction s with
  | nil => exact .inl ⟨rfl, rfl⟩
  | cons c cs ih =>
    right
    by_cases hc : c = '\n'
    · subst hc
      exact ⟨['\n'], cs, by simp [getline], by simp [vectorLines]⟩
    · rw [getline_cons hc, vectorLines_cons hc]
      rcases ih with ⟨hnone, hlines⟩ | ⟨line, rest, hsome, hlines⟩
      · rw [hnone, hlines]
        exact ⟨[c], [], rfl, rfl⟩
      · rw [hsome, hlines]
        exact ⟨c :: line, rest, rfl, rfl⟩

theorem vectorLines_none {s : List Char} (h : getline s = none) : vectorLines s = [] := by
  rcases getline_lines s with ⟨_, hlines⟩ | ⟨line, rest, hsome, _⟩
  · exact hlines
  · cases h.symm.trans hsome

theorem vectorLines_some {s line rest : List Char} (h : getline s = some (line, rest)) :
    vectorLines s = line :: vectorLines rest := by
  rcases getline_lines s with ⟨hnone, _⟩ | ⟨_, _, hsome, hlines⟩
  · cases hnone.symm.trans h
  · cases hsome.symm.trans h
    exact hlines

/-- The lines are all there is of a file. -/
theorem vectorLines_flatten (s : List Char) : (vectorLines s).flatten = s := by
  induction s with
  | nil => rfl
  | cons c cs ih =>
    by_cases hc : c = '\n'
    · simp [vectorLines, hc, ih]
    · rw [vectorLines_cons hc]
      cases hlines : vectorLines cs with
      | nil =>
        rw [hlines] at ih
        simpa using ih
      | cons line lines =>
        rw [hlines] at ih
        simpa using ih

/-- A token is found where there is anything but delimiters. -/
theorem strtok_isSome (delim : Char) (s : List Char) :
    (strtok delim s).1.isSome = true ↔ ∃ y ∈ s, y ≠ delim := by
  unfold strtok
  cases hd : s.dropWhile (· = delim) with
  | nil =>
    have hall := List.dropWhile_eq_nil_iff.mp hd
    simpa using hall
  | cons c cs =>
    have hc : c ≠ delim := by
      have hhead := List.head?_dropWhile_not (· = delim) s
      rw [hd] at hhead
      simpa using hhead
    have hmem : c ∈ s := (List.dropWhile_sublist _).subset (hd ▸ List.mem_cons_self)
    exact ⟨fun _ => ⟨c, hmem, hc⟩, fun _ => rfl⟩

/-- What is left after a token and its delimiter. -/
theorem after_token (s : List Char) :
    (∃ y ∈ (s.dropWhile (· ≠ delim)).drop 1, y ≠ delim) ↔
      ∃ y, y ≠ delim ∧ [delim, y].Sublist s := by
  induction s with
  | nil => simp
  | cons c cs ih =>
    by_cases hc : c = delim
    · subst hc
      have hdrop : (c :: cs).dropWhile (· ≠ c) = c :: cs := List.dropWhile_cons_of_neg (by simp)
      simp only [hdrop, List.drop_succ_cons, List.drop_zero, List.cons_sublist_cons,
        List.singleton_sublist]
      exact exists_congr fun _ => And.comm
    · rw [List.dropWhile_cons_of_pos (by simpa using hc), ih]
      refine exists_congr fun y => and_congr_right fun _ => ⟨fun hsub => hsub.cons c, fun hsub => ?_⟩
      cases hsub with
      | cons _ hsub => exact hsub
      | cons_cons _ hsub => exact absurd rfl hc

theorem strtok_delim (cs : List Char) : strtok delim (delim :: cs) = strtok delim cs := by
  simp [strtok]

/-- A second token is found after a first one, its delimiter and any more of these. -/
theorem strtok_strtok (delim : Char) (s : List Char) :
    (strtok delim (strtok delim s).2).1.isSome = true ↔
      ∃ x y, x ≠ delim ∧ y ≠ delim ∧ [x, delim, y].Sublist s := by
  rw [strtok_isSome]
  induction s with
  | nil => simp [strtok]
  | cons c cs ih =>
    by_cases hc : c = delim
    · subst hc
      rw [strtok_delim, ih]
      refine exists_congr fun x => exists_congr fun y => and_congr_right fun hx =>
        and_congr_right fun _ => ⟨fun hsub => hsub.cons c, fun hsub => ?_⟩
      cases hsub with
      | cons _ hsub => exact hsub
      | cons_cons _ hsub => exact absurd rfl hx
    · have hsaved : (strtok delim (c :: cs)).2 = (cs.dropWhile (· ≠ delim)).drop 1 := by
        simp [strtok, hc]
      rw [hsaved, after_token]
      constructor
      · intro hq
        obtain ⟨y, hy, hsub⟩ := hq
        exact ⟨c, y, hc, hy, hsub.cons_cons c⟩
      · intro hq
        obtain ⟨x, y, _, hy, hsub⟩ := hq
        refine ⟨y, hy, ?_⟩
        cases hsub with
        | cons _ hsub => exact (List.sublist_cons_self _ _).trans hsub
        | cons_cons _ hsub => exact hsub

/-- A line is parsed just when it has a time. -/
theorem parseLine_isSome (isIpfvt : Bool) (line : List Char) :
    (parseLine isIpfvt line).isSome = true ↔ Timed (delimiter isIpfvt) line := by
  have hfirst := strtok_isSome (delimiter isIpfvt) (cString line)
  have hsecond := strtok_strtok (delimiter isIpfvt) (cString line)
  have hboth : (strtok (delimiter isIpfvt) (strtok (delimiter isIpfvt) (cString line)).2).1.isSome →
      (strtok (delimiter isIpfvt) (cString line)).1.isSome := by
    intro h
    obtain ⟨x, y, hx, _, hsub⟩ := hsecond.mp h
    exact hfirst.mpr ⟨x, hsub.subset List.mem_cons_self, hx⟩
  rw [Timed, ← hsecond, parseLine_eq, allocCntOf, timeToken]
  generalize (strtok (delimiter isIpfvt) (strtok (delimiter isIpfvt) (cString line)).2).1 = second
    at hboth ⊢
  generalize (strtok (delimiter isIpfvt) (cString line)).1 = first at hboth ⊢
  cases second with
  | none =>
    cases isIpfvt <;> cases first <;> rfl
  | some t =>
    obtain ⟨a, ha⟩ := Option.isSome_iff_exists.mp (hboth rfl)
    subst ha
    cases isIpfvt <;> rfl

/-- `n` reads end when each of the lines read has a time, and else at one that has none. -/
theorem reads_ends (isIpfvt : Bool) (n : Nat) (s : St γ) :
    Ends (reads isIpfvt n) s
      (fun _ _ => ∀ line ∈ (vectorLines s.vectorStream).take n, Timed (delimiter isIpfvt) line)
      (fun e _ => e = .undefined .nullToken ∧
        ∃ line ∈ (vectorLines s.vectorStream).take n, ¬Timed (delimiter isIpfvt) line) := by
  induction n generalizing s with
  | zero => exact fun line hline => absurd hline List.not_mem_nil
  | succ n ih =>
    unfold reads times
    simp only [ends_bind, ends_pure]
    refine (getNxtAlloc_ends isIpfvt s).mono ?_ ?_
    · rintro r t (⟨_, rfl, hnone⟩ | ⟨line, p, ⟨rest, hgot, rfl⟩, hparsed, _⟩)
      · have hrest := ih t
        rw [vectorLines_none hnone, List.take_nil] at hrest ⊢
        exact hrest
      · have htimed := (parseLine_isSome isIpfvt line).mp (hparsed ▸ rfl)
        rw [vectorLines_some hgot, List.take_succ_cons]
        refine (ih { s with vectorStream := rest }).mono ?_ ?_
        · intro _ _ hrest
          exact List.forall_mem_cons.mpr ⟨htimed, hrest⟩
        · intro e _ hq
          obtain ⟨he, l, hl, hnot⟩ := hq
          exact ⟨he, l, List.mem_cons_of_mem _ hl, hnot⟩
    · rintro e t ⟨rfl, line, ⟨rest, hgot, rfl⟩, hparsed⟩
      rw [vectorLines_some hgot, List.take_succ_cons]
      refine ⟨rfl, line, List.mem_cons_self, fun htimed => ?_⟩
      have hsome := (parseLine_isSome isIpfvt line).mpr htimed
      rw [hparsed] at hsome
      cases hsome

theorem ReadsTotal.timed {isIpfvt : Bool} {bytes : List Char} {n : Nat}
    (h : ReadsTotal isIpfvt bytes n) :
    ∀ line ∈ (vectorLines bytes).take n, Timed (delimiter isIpfvt) line := by
  let s : St Unit := { initial smallTable (fun _ => 0) () with vectorStream := bytes }
  obtain ⟨_, _, _, _, htimed⟩ :=
    ((h Unit s rfl).and (reads_ends isIpfvt n s)).returns fun _ _ he => he.1
  exact htimed

/-- Reading a vector never passes a missing token on just when each of the
lines read has a time. -/
theorem vector_reader_total (isIpfvt : Bool) (bytes : List Char) (n : Nat) :
    ReadsTotal isIpfvt bytes n ↔
      ∀ line ∈ (vectorLines bytes).take n, Timed (delimiter isIpfvt) line := by
  refine ⟨ReadsTotal.timed, ?_⟩
  rintro htimed γ s rfl
  refine (reads_ends isIpfvt n s).mono (fun _ _ _ => trivial) ?_
  intro _ _ hq
  obtain ⟨_, line, hline, hnot⟩ := hq
  exact hnot (htimed line hline)

/-- A blank line has one token, and the time is looked for in a second one. -/
theorem vector_blank_line : ¬ReadsTotal false "10, 5\n\n".toList 2 ∧
    ¬ReadsTotal true "7\n".toList 1 := by
  refine ⟨fun h => ?_, fun h => ?_⟩
  · obtain ⟨_, _, _, _, hsub⟩ := h.timed ['\n'] (by decide)
    exact absurd (show 3 ≤ (cString ['\n']).length from hsub.length_le) (by decide)
  · obtain ⟨_, _, _, _, hsub⟩ := h.timed ['7', '\n'] (by decide)
    exact absurd (show 3 ≤ (cString ['7', '\n']).length from hsub.length_le) (by decide)

end Gobbler.Proofs
