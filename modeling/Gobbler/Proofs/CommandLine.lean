import Gobbler.Lib.Settings
import Gobbler.Proofs.Runs

namespace Gobbler.Proofs
open Effect Settings

variable {γ : Type} {w : World γ} {table : FileTable} {opts : List Opt} {mem : Nat → UInt8} {gen : γ}

/-- The letter by which `getopt` knows an option. -/
def letter : Opt → Char
  | .p _ => 'p'
  | .l _ => 'l'
  | .v => 'v'
  | .e _ => 'e'
  | .M _ => 'M'
  | .s _ => 's'
  | .t _ => 't'
  | .A _ => 'A'
  | .V _ => 'V'
  | .I => 'I'
  | .S _ => 'S'
  | .L _ => 'L'
  | .h => 'h'

/-- The options after which `main` goes on. -/
def Permitted : Opt → Prop
  | .t n => ofLong n < 5
  | .V none => False
  | .h => False
  | _ => True

/-- The text with which `main` ends at any other option. -/
def objection : Opt → String
  | .t _ => "Wrong access type\n"
  | .V _ => "Please provide valid file\n"
  | _ => "usage"

/-- What an option sets. -/
def configure (s : St γ) : Opt → St γ
  | .p n => { s with maxPhase := ofLong n }
  | .l n => { s with maxLimit := ofLong n }
  | .v => { s with verbose := false }
  | .e n => { s with wcet := n }
  | .M n => { s with
      maxAllocPerPhase := ofLong n
      allocPrecision := true
      maxAllocPerPhaseByte := wrap (ofLong n * pageSize) }
  | .s n => { s with
      speed := if s.fileLst.length ≤ ofLong n then wrapSub s.fileLst.length 1 else ofLong n }
  | .t n => { s with accessType := ofLong n }
  | .A n => { s with allocSize := ofLong n, allocPrecision := true }
  | .V bytes => { s with vector := true, vectorStream := bytes.getD [] }
  | .I => { s with ipfvt := true, timeG := .nanoSecs }
  | .S n => { s with stma := ofLong n }
  | .L n => { s with ltma := ofLong n }
  | .h => s

theorem option_permitted {o : Opt} (h : Permitted o) (s : St γ) :
    option o s = .ok ⟨⟩ (configure s o) := by
  cases o with
  | t n => exact congrFun (if_neg (Nat.not_le_of_lt h)) s
  | V bytes =>
    cases bytes with
    | none => exact h.elim
    | some bytes => rfl
  | h => exact h.elim
  | _ => rfl

theorem option_refused {o : Opt} (h : ¬Permitted o) (s : St γ) :
    option o s = .error (.exit (objection o)) s := by
  cases o with
  | t n => exact congrFun (if_pos (Nat.le_of_not_lt h)) s
  | V bytes =>
    cases bytes with
    | none => rfl
    | some bytes => exact absurd trivial h
  | h => rfl
  | _ => exact absurd trivial h

theorem options_permitted (h : ∀ o ∈ opts, Permitted o) (s : St γ) :
    options opts s = .ok ⟨⟩ (opts.foldl configure s) := by
  induction opts generalizing s with
  | nil => rfl
  | cons o os ih =>
    obtain ⟨ho, hos⟩ := List.forall_mem_cons.mp h
    unfold options
    rw [bind_ok (option_permitted ho s)]
    exact ih hos _

theorem options_refused {before after : List Opt} {o : Opt} (h : ∀ o ∈ before, Permitted o)
    (ho : ¬Permitted o) (s : St γ) : options (before ++ o :: after) s =
      .error (.exit (objection o)) (before.foldl configure s) := by
  induction before generalizing s with
  | nil =>
    rw [List.nil_append]
    unfold options
    exact bind_error (option_refused ho s)
  | cons o' os ih =>
    obtain ⟨ho', hos⟩ := List.forall_mem_cons.mp h
    rw [List.cons_append]
    unfold options
    rw [bind_ok (option_permitted ho' s)]
    exact ih hos _

/-- No two options set the same field, but for `-M` and `-A`, which set it alike. -/
theorem configure_setting : Setting letter (configure (γ := γ)) := by
  refine ⟨fun i j hne s => ?_, fun i j heq s => ?_⟩
  · cases i <;> cases j <;> first | rfl | exact absurd rfl hne
  · cases i <;> cases j <;> first | rfl | simp [letter] at heq

/-- The first turn once the options are read. -/
theorem run_one (h : ∀ o ∈ opts, Permitted o) :
    run w table opts mem gen 1 = step w ⟨opts.foldl configure (initial table mem gen), .boot []⟩ := by
  have hread := options_permitted h (initial table mem gen)
  have hturn : turn w (.boot opts) (initial table mem gen) =
      turn w (.boot []) (opts.foldl configure (initial table mem gen)) := by
    simp only [turn, mainEnter]
    rw [bind_ok hread]
    rfl
  change step w ⟨initial table mem gen, .boot opts⟩ = _
  simp only [step, hturn]

/-- Of the options with one letter only the last counts, and the order of the
letters does not. -/
theorem last_option_wins {opts' : List Opt} (h : ∀ o ∈ opts, Permitted o)
    (h' : ∀ o ∈ opts', Permitted o) (hlast : ∀ c, lastOf letter c opts = lastOf letter c opts')
    (n : Nat) : run w table opts mem gen (n + 1) = run w table opts' mem gen (n + 1) := by
  have hone : run w table opts mem gen 1 = run w table opts' mem gen 1 := by
    rw [run_one h, run_one h', configure_setting.foldl_eq hlast]
  rw [run_add, run_add, hone]

theorem last_option_wins_swapped :
    run plainWorld smallTable [.p 3, .M 2, .p 5] (fun _ => 0) () 9 =
      run plainWorld smallTable [.M 7, .p 5, .M 2] (fun _ => 0) () 9 := by
  refine last_option_wins ?_ ?_ ?_ 8
  · simp [Permitted]
  · simp [Permitted]
  · intro c
    by_cases hp : 'p' = c
    · subst hp
      rfl
    · by_cases hM : 'M' = c
      · subst hM
        rfl
      · simp [lastOf, letter, hp, hM]

/-- The number of `-S` or of `-L`. -/
def period : Opt → Nat
  | .S n => ofLong n
  | .L n => ofLong n
  | _ => 0

/-- What `stma` or `ltma` is once the options are read. -/
def periodOf (c : Char) (opts : List Opt) : Nat := (lastOf letter c opts).elim 0 period

theorem foldl_periods (s : St γ) (hs : s.stma = 0) (hl : s.ltma = 0) :
    (opts.foldl configure s).stma = periodOf 'S' opts ∧
      (opts.foldl configure s).ltma = periodOf 'L' opts := by
  induction opts using List.reverseRecOn with
  | nil => exact ⟨hs, hl⟩
  | append_singleton os o ih =>
    obtain ⟨hstma, hltma⟩ := ih
    rw [List.foldl_append, List.foldl_cons, List.foldl_nil]
    unfold periodOf
    rw [lastOf_append_singleton, lastOf_append_singleton]
    cases o <;> simp_all [letter, configure, period, periodOf]

theorem periodOf_lt (c : Char) (opts : List Opt) : periodOf c opts < 2 ^ 64 := by
  unfold periodOf
  cases lastOf letter c opts with
  | none => simp
  | some o =>
    cases o with
    | S n | L n => exact ofLong_lt n
    | _ => simp [period]

/-- An average that was not given is twice or half the other. -/
def averages (stma ltma : Nat) : Nat × Nat :=
  (if stma = 0 then ltma / 2 else stma, if ltma = 0 then 2 * stma % 2 ^ 64 else ltma)

/-- The averages are handed to the kernel, with this outcome. They are not when
nothing is left of one: half of 1, or twice 2 ^ 63. -/
def Handed (w : World γ) (stma ltma : Nat) (outcome : PdLen) : Prop :=
  (stma ≠ 0 ∨ ltma ≠ 0) ∧ (stma, ltma) ≠ (0, 1) ∧ (stma, ltma) ≠ (2 ^ 63, 0) ∧
    w.pdLen (averages stma ltma).1 (averages stma ltma).2 = outcome

/-- The program ends with a text, or it reads through a stream that was not reopened. -/
inductive Fails (unopened : Prop) : Halt → Prop
  | text (text : String) (no : ¬unopened) : Fails unopened (.exit text)
  | stream (yes : unopened) : Fails unopened (.undefined .nullStream)

theorem averages_pos {stma ltma : Nat} (hstma : stma < 2 ^ 64) (hany : stma ≠ 0 ∨ ltma ≠ 0) :
    ((averages stma ltma).1 ≠ 0 ∧ (averages stma ltma).2 ≠ 0) ↔
      (stma, ltma) ≠ (0, 1) ∧ (stma, ltma) ≠ (2 ^ 63, 0) := by
  simp only [averages, ne_eq, Prod.mk.injEq]
  split <;> split <;> omega

theorem writeStmaLtma_ends (stma ltma : Nat) (s : St γ) :
    Ends (writeStmaLtma w stma ltma) s (fun _ _ => w.pdLen stma ltma = .taken)
      (fun x _ => w.pdLen stma ltma ≠ .taken ∧ Fails (w.pdLen stma ltma = .notReopened) x) := by
  unfold writeStmaLtma
  cases w.pdLen stma ltma with
  | taken => simp
  | notReopened => exact ⟨nofun, .stream rfl⟩
  | notOpened | notWritten | notTaken => exact ⟨nofun, .text _ nofun⟩

theorem resetStmaLtma_ends {stma ltma : Nat} (hstma : stma < 2 ^ 64) (hany : stma ≠ 0 ∨ ltma ≠ 0)
    (s : St γ) : Ends (resetStmaLtma w stma ltma) s (fun _ _ => Handed w stma ltma .taken)
      (fun x _ => ¬Handed w stma ltma .taken ∧ Fails (Handed w stma ltma .notReopened) x) := by
  have hpos := averages_pos hstma hany
  have hfirst : (if stma = 0 ∧ ltma ≠ 0 then ltma / 2 else stma) = (averages stma ltma).1 := by
    simp only [averages]
    split <;> split <;> omega
  have hsecond : (if stma ≠ 0 ∧ ltma = 0 then wrap (stma * 2) else ltma) = (averages stma ltma).2 := by
    simp only [averages, wrap]
    split <;> split <;> omega
  unfold resetStmaLtma
  simp only [hfirst, hsecond]
  rw [if_neg (by omega), ends_ite]
  constructor
  · intro hne
    obtain ⟨hone, htwo⟩ := hpos.mp hne
    refine (writeStmaLtma_ends _ _ s).mono (fun _ _ ht => ⟨hany, hone, htwo, ht⟩) ?_
    rintro x _ ⟨htaken, hfails⟩
    refine ⟨fun ht => htaken ht.2.2.2, ?_⟩
    cases hfails with
    | text text hno => exact .text text fun hr => hno hr.2.2.2
    | stream hyes => exact .stream ⟨hany, hone, htwo, hyes⟩
  · intro hne
    have hlost : ∀ {outcome : PdLen}, ¬Handed w stma ltma outcome :=
      fun hh => hne (hpos.mpr ⟨hh.2.1, hh.2.2.1⟩)
    exact ⟨hlost, .text _ hlost⟩

/-- The rest of the first turn, after the options. -/
theorem turn_read (s : St γ) : ∃ t : St γ, turn w (.boot []) s = (do
    allocTrackInit w
    if s.stma ≠ 0 ∨ s.ltma ≠ 0 then resetStmaLtma w s.stma s.ltma
    return .main : M γ Pc) t :=
  ⟨_, rfl⟩

/-- The first turn goes through once the options are read. -/
def Booted (w : World γ) (stma ltma : Nat) : Prop :=
  w.malloc 0 = true ∧ (stma = 0 ∧ ltma = 0 ∨ Handed w stma ltma .taken)

/-- It comes to the stream that was not reopened. -/
def Unopened (w : World γ) (stma ltma : Nat) : Prop :=
  w.malloc 0 = true ∧ Handed w stma ltma .notReopened

theorem Booted.not_unopened {stma ltma : Nat} (h : Booted w stma ltma) : ¬Unopened w stma ltma := by
  rintro ⟨_, hany, _, _, hanswer⟩
  rcases h.2 with hnone | ⟨_, _, _, htaken⟩
  · omega
  · cases hanswer.symm.trans htaken

theorem turn_read_ends {s : St γ} (hstma : s.stma < 2 ^ 64) :
    Ends (turn w (.boot [])) s (fun pc _ => pc = .main ∧ Booted w s.stma s.ltma)
      (fun x _ => ¬Booted w s.stma s.ltma ∧ Fails (Unopened w s.stma s.ltma) x) := by
  obtain ⟨t, ht⟩ := turn_read (w := w) s
  rw [Ends, ht, ← Ends, ends_bind]
  unfold allocTrackInit
  rw [ends_ite]
  refine ⟨fun hmal => ?_, fun hmal => ?_⟩
  · rw [ends_modify]
    by_cases hany : s.stma ≠ 0 ∨ s.ltma ≠ 0
    · have hnone : ¬(s.stma = 0 ∧ s.ltma = 0) := by omega
      rw [if_pos hany, ends_bind]
      refine (resetStmaLtma_ends hstma hany _).mono (fun _ _ ht => ⟨rfl, hmal, .inr ht⟩) ?_
      rintro x _ ⟨htaken, hfails⟩
      refine ⟨fun hb => hb.2.elim hnone htaken, ?_⟩
      cases hfails with
      | text text hno => exact .text text fun hr => hno hr.2
      | stream hyes => exact .stream ⟨hmal, hyes⟩
    · rw [if_neg hany]
      exact ⟨rfl, hmal, .inl (by omega)⟩
  · exact ⟨fun hb => hmal hb.1, .text _ fun hr => hmal hr.1⟩

/-- Three ways to end the first turn. -/
theorem step_boot_ends {stma ltma : Nat} {m : Machine γ}
    (h : Ends (turn w m.pc) m.st (fun pc _ => pc = .main ∧ Booted w stma ltma)
      (fun x _ => ¬Booted w stma ltma ∧ Fails (Unopened w stma ltma) x)) :
    ((step w m).pc = .main ↔ Booted w stma ltma) ∧
      ((step w m).pc = .stopped (.undefined .nullStream) ↔ Unopened w stma ltma) ∧
      ((step w m).pc = .main ∨ (step w m).pc = .stopped (.undefined .nullStream) ∨
        ∃ text, (step w m).pc = .stopped (.exit text)) := by
  unfold Ends at h
  unfold step
  split at h
  · obtain ⟨hpc, hbooted⟩ := h
    have hopened := hbooted.not_unopened
    simp_all
  · obtain ⟨hnot, hfails⟩ := h
    cases hfails <;> simp_all

/-- The first option that is not permitted. -/
theorem first_refused (h : ¬∀ o ∈ opts, Permitted o) :
    ∃ before o after, opts = before ++ o :: after ∧ (∀ o' ∈ before, Permitted o') ∧ ¬Permitted o := by
  induction opts with
  | nil => simp at h
  | cons o os ih =>
    by_cases ho : Permitted o
    · obtain ⟨before, o', after, rfl, hbefore, ho'⟩ := ih (by simpa [ho] using h)
      exact ⟨o :: before, o', after, rfl, by simpa [ho] using hbefore, ho'⟩
    · exact ⟨[], o, os, rfl, by simp, ho⟩

/-- The first option that is not permitted ends the program with its text. -/
theorem run_refused {before after : List Opt} {o : Opt} (hbefore : ∀ o' ∈ before, Permitted o')
    (ho : ¬Permitted o) : (run w table (before ++ o :: after) mem gen 1).pc =
      .stopped (.exit (objection o)) := by
  have hturn : turn w (.boot (before ++ o :: after)) (initial table mem gen) =
      .error (.exit (objection o)) (before.foldl configure (initial table mem gen)) :=
    bind_error (options_refused hbefore ho _)
  change (step w ⟨initial table mem gen, .boot _⟩).pc = _
  simp only [step, hturn]

/-- The first turn reaches the loop of `main` just when every option is
permitted, the tracker is allocated and the two averages, if one was given, are
taken. When only the file of the averages could not be opened to read them back,
the program reads through NULL. Otherwise it has stopped with a text, that of the
first option not permitted if there is one. -/
theorem run_boots :
    ((run w table opts mem gen 1).pc = .main ↔ (∀ o ∈ opts, Permitted o) ∧
      w.malloc 0 = true ∧ (periodOf 'S' opts = 0 ∧ periodOf 'L' opts = 0 ∨
        Handed w (periodOf 'S' opts) (periodOf 'L' opts) .taken)) ∧
    ((run w table opts mem gen 1).pc = .stopped (.undefined .nullStream) ↔
      (∀ o ∈ opts, Permitted o) ∧
      w.malloc 0 = true ∧ Handed w (periodOf 'S' opts) (periodOf 'L' opts) .notReopened) ∧
    ((run w table opts mem gen 1).pc = .main ∨
      (run w table opts mem gen 1).pc = .stopped (.undefined .nullStream) ∨
      ∃ text, (run w table opts mem gen 1).pc = .stopped (.exit text)) ∧
    (∀ before o after, opts = before ++ o :: after → (∀ o' ∈ before, Permitted o') → ¬Permitted o →
      (run w table opts mem gen 1).pc = .stopped (.exit (objection o))) := by
  by_cases h : ∀ o ∈ opts, Permitted o
  · obtain ⟨hstma, hltma⟩ := @foldl_periods γ opts (initial table mem gen) rfl rfl
    have hends := turn_read_ends (w := w) (hstma ▸ periodOf_lt 'S' opts)
    rw [hstma, hltma] at hends
    obtain ⟨hmain, hnull, hall⟩ := step_boot_ends (m := ⟨_, .boot []⟩) hends
    rw [run_one h]
    refine ⟨hmain.trans (and_iff_right h).symm, hnull.trans (and_iff_right h).symm, hall, ?_⟩
    intro before o after heq _ ho
    exact absurd (h o (by simp [heq])) ho
  · obtain ⟨before, o, after, heq, hbefore, ho⟩ := first_refused h
    have hpc : (run w table opts mem gen 1).pc = .stopped (.exit (objection o)) :=
      heq ▸ run_refused hbefore ho
    have hrefused : ∀ before o after, opts = before ++ o :: after → (∀ o' ∈ before, Permitted o') →
        ¬Permitted o → (run w table opts mem gen 1).pc = .stopped (.exit (objection o)) := by
      intro before o after heq hbefore ho
      exact heq ▸ run_refused hbefore ho
    exact ⟨⟨by simp [hpc], fun hall => absurd hall.1 h⟩, ⟨by simp [hpc], fun hall => absurd hall.1 h⟩,
      .inr (.inr ⟨_, hpc⟩), hrefused⟩

end Gobbler.Proofs
