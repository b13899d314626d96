import Gobbler.Proofs.Records

namespace Gobbler.Proofs

variable {γ : Type} {w : World γ} {table : FileTable} {opts : List Opt} {mem : Nat → UInt8}
  {gen : γ}

theorem run_length (n : Nat) :
    (run w table opts mem gen n).st.fileLst.length = table.classes.length := by
  have hs := congrArg List.length (run_settled w table opts mem gen n).sizes
  simp only [List.length_map] at hs
  exact hs

/-- The lengths that requests record suit the arithmetic of the access patterns. -/
theorem run_usable (hps : w.pageSize = 4096) (ht : PageTable table) (n : Nat) :
    Usable w (run w table opts mem gen n).st.toBook := by
  refine ⟨hps, (run_settled w table opts mem gen n).access, fun r hr => ?_⟩
  obtain ⟨_, hmem⟩ := (run_tracked w table opts mem gen n).current_mem hr
  obtain ⟨hpos, hdvd, e, he, hle⟩ := run_paged w ht opts mem gen n r hmem
  have hsize := table.size_lt e he
  exact ⟨Nat.le_of_dvd hpos hdvd, Nat.lt_of_le_of_lt hle hsize⟩

theorem run_safe (hps : w.pageSize = 4096) (ht : PageTable table) (n : Nat) :
    ∀ c ∈ (run w table opts mem gen n).st.calls, Safe table.classes.length c := by
  induction n with
  | zero =>
    intro c hc
    cases hc
  | succ n ih =>
    intro c hc
    have hcalls := (run_turned w table opts mem gen n).calls (run_usable hps ht (n + 1))
    rcases hcalls c hc with hold | hnew
    · exact ih c hold
    · exact run_length n ▸ hnew

/-- The divisor of a usable limit is positive, and zero is a draw it accepts. -/
theorem randLim_accepts {limit : Int} (h : 1 ≤ limit) (h' : limit < randMax) :
    0 < (randMax : Int).tdiv (limit + 1) ∧
      ∃ r : Nat, r ≤ randMax ∧ (r : Int).tdiv ((randMax : Int).tdiv (limit + 1)) < limit := by
  refine ⟨randLim_divisor h h', 0, Nat.zero_le _, ?_⟩
  simp only [Nat.cast_zero, Int.zero_tdiv]
  omega

/-- All along a run every call of the samplers and of the stride computation has
arguments its arithmetic is safe for, and every class that a request asks for exists. -/
theorem arithmetic_safe (w : World γ) (hps : w.pageSize = 4096) (table : FileTable)
    (ht : PageTable table) (opts : List Opt) (mem : Nat → UInt8) (gen : γ) (n : Nat) :
    let calls := (run w table opts mem gen n).st.calls
    (∀ limit : Int, .randLim limit ∈ calls → 1 ≤ limit ∧ limit < randMax ∧
      0 < (randMax : Int).tdiv (limit + 1) ∧
      ∃ r : Nat, r ≤ randMax ∧ (r : Int).tdiv ((randMax : Int).tdiv (limit + 1)) < limit) ∧
    (∀ first last : Nat, .randIntr first last ∈ calls → wrap (wrapSub last first + 1) ≠ 0) ∧
    (∀ len : Nat, .strideGetOffset len ∈ calls → 1 ≤ len) ∧
    (∀ i : Nat, .fileLst i ∈ calls → i < table.classes.length) := by
  have hsafe : ∀ c ∈ (run w table opts mem gen n).st.calls, Safe table.classes.length c :=
    run_safe hps ht n
  refine ⟨fun limit hc => ?_, fun _ _ hc => hsafe _ hc, fun _ hc => hsafe _ hc,
    fun _ hc => hsafe _ hc⟩
  obtain ⟨hlow, hhigh⟩ := hsafe _ hc
  exact ⟨hlow, hhigh, randLim_accepts hlow hhigh⟩

theorem arithmetic_safe_small :
    let calls := (run plainWorld smallTable [.M 2, .e 1] (fun _ => 0) () 8).st.calls
    (∀ limit : Int, .randLim limit ∈ calls → 1 ≤ limit ∧ limit < randMax ∧
      0 < (randMax : Int).tdiv (limit + 1) ∧
      ∃ r : Nat, r ≤ randMax ∧ (r : Int).tdiv ((randMax : Int).tdiv (limit + 1)) < limit) ∧
    (∀ first last : Nat, .randIntr first last ∈ calls → wrap (wrapSub last first + 1) ≠ 0) ∧
    (∀ len : Nat, .strideGetOffset len ∈ calls → 1 ≤ len) ∧
    (∀ i : Nat, .fileLst i ∈ calls → i < smallTable.classes.length) := by
  have htable : PageTable smallTable := by simp [PageTable, smallTable, pageSize]
  exact arithmetic_safe plainWorld rfl smallTable htable [.M 2, .e 1] (fun _ => 0) () 8

end Gobbler.Proofs
