import Gobbler.Proofs.Progress
import Gobbler.Proofs.Representation
import Gobbler.Proofs.Tally

namespace Gobbler.Proofs

variable {γ : Type} {w : World γ} {table : FileTable} {opts : List Opt} {mem : Nat → UInt8}
  {gen : γ} {b : Book} {l : TransLocals}

/-- What is left of a transition: requests, and room in the list of the phase. -/
def passesLeft (b : Book) (l : TransLocals) : Nat :=
  l.cnt + (maxAllocPerSe - (current b).length)

/-- A refused request uses up its count, and a served one a place in the list. -/
theorem RequestFor.passes {ps : Nat} {typ : MemType} {cnt : Nat} {led : Ledger}
    (h : Request ps b l.anonSlice l.cnt typ cnt led) (more : l.cnt ≠ 0) :
    passesLeft (withLedger b led) (nextLocals l typ cnt) < passesLeft b l := by
  unfold passesLeft
  obtain ⟨hsame, hcnt⟩ | ⟨lst, r, node, _, hroom, happ, hprec, hdrawn⟩ := h.counts more
  · rw [hsame]
    omega
  · have hcnt : (nextLocals l typ cnt).cnt ≤ l.cnt := by
      cases hp : b.allocPrecision with
      | true =>
        rw [hprec hp]
        exact Nat.sub_le _ _
      | false => exact Nat.le_trans (hdrawn hp) (Nat.sub_le _ _)
    rw [happ, List.length_append, List.length_singleton]
    omega

/-- A pass of a transition goes on with less left, enters the holding state, or
ends the program. -/
theorem Move.of_pass {b' : Book} {e : ℚ} {t : Granularity} {pc : Pc}
    (h : Move w ⟨b, .trans e t l⟩ ⟨b', pc⟩) :
    (∃ l', pc = .trans e t l' ∧ passesLeft b' l' < passesLeft b l) ∨
      (∃ n i, pc = .hold ⟨e, t, cpuTime w t n, 0, i, 0⟩ ∧ b' = left b) ∨
      ∃ x, pc = .stopped x ∧ x ≠ .returned := by
  cases h with
  | idle hi =>
    cases hi with
    | leave _ _ => exact .inr (.inl ⟨_, _, rfl, rfl⟩)
    | leaveHalt _ _ => exact .inr (.inr ⟨_, rfl, by simp⟩)
  | request more request => exact .inl ⟨_, rfl, request.passes more⟩
  | trouble _ _ _ why => exact .inr (.inr ⟨_, rfl, why.not_returned⟩)
  | aborted _ aborted => exact .inr (.inr ⟨_, rfl, aborted.not_returned⟩)

/-- A transition ends, in its holding state or with an error. -/
theorem transition_ends {n : Nat} {e : ℚ} {t : Granularity} {l : TransLocals}
    (hpc : (run w table opts mem gen n).pc = .trans e t l) :
    ∃ m, (∀ j, j ≤ m → inTransition (run w table opts mem gen (n + j)).pc = true) ∧
      ((∃ a i, (run w table opts mem gen (n + m + 1)).pc = .hold ⟨e, t, cpuTime w t a, 0, i, 0⟩ ∧
          (run w table opts mem gen (n + m + 1)).st.toBook =
            left (run w table opts mem gen (n + m)).st.toBook) ∨
        ∃ h, (run w table opts mem gen (n + m + 1)).pc = .stopped h ∧ h ≠ .returned) := by
  induction hk : passesLeft (run w table opts mem gen n).st.toBook l using Nat.strongRecOn
    generalizing n l with
  | ind k ih =>
    have hhere : inTransition (run w table opts mem gen n).pc = true := by
      rw [hpc]
      rfl
    have hm := (run_turned w table opts mem gen n).move
    rw [hpc] at hm
    rcases hm.of_pass with ⟨l', hpc', hless⟩ | hend
    · obtain ⟨m, hin, hend⟩ := ih _ (hk ▸ hless) hpc' rfl
      refine ⟨m + 1, ?_, ?_⟩
      · rintro (_ | j) hj
        · exact hhere
        · rw [Nat.add_comm j 1, ← Nat.add_assoc]
          exact hin j (Nat.le_of_succ_le_succ hj)
      · rwa [Nat.add_comm m 1, ← Nat.add_assoc]
    · refine ⟨0, ?_, ?_⟩
      · intro j hj
        obtain rfl := Nat.le_zero.mp hj
        exact hhere
      · rcases hend with ⟨a, i, hhold, hleft⟩ | hstop
        · exact .inl ⟨a, i, hhold, hleft⟩
        · exact .inr hstop

/-- The CPU clock gets as far as a holding state needs. -/
def Timely (w : World γ) (m : Machine γ) : Prop :=
  ∀ l, m.pc = .hold l → ∃ last, ∀ k, last ≤ k → l.execTime ≤ l.run + (cpuTime w l.t k - l.now)

theorem holding_ends {n : Nat} {l : HoldLocals} (hpc : (run w table opts mem gen n).pc = .hold l)
    (htime : Timely w (run w table opts mem gen n)) :
    ∃ m, n ≤ m ∧ ((run w table opts mem gen m).pc = .main ∨
      ∃ h, (run w table opts mem gen m).pc = .stopped h) := by
  obtain ⟨last, hlast⟩ := htime l hpc
  have hstart : Holding w (run w table opts mem gen n).st.toBook last l
      (run w table opts mem gen n) := ⟨hpc, rfl, hlast⟩
  obtain ⟨k, hk⟩ := holding_leads _ ⟨l, hstart⟩
  rw [← run_add] at hk
  refine ⟨k + n, Nat.le_add_left n k, ?_⟩
  rcases hk with hheld | ⟨h, hstop, _⟩
  · exact .inl hheld.1
  · exact .inr ⟨h, hstop⟩

/-- The program comes back to `main` from everywhere, or it stops. -/
theorem back_in_main (htime : ∀ m, Timely w (run w table opts mem gen m)) {n : Nat}
    (hboot : ∀ os, (run w table opts mem gen n).pc ≠ .boot os) :
    ∃ m, n ≤ m ∧ ((run w table opts mem gen m).pc = .main ∨
      ∃ h, (run w table opts mem gen m).pc = .stopped h) := by
  cases hpc : (run w table opts mem gen n).pc with
  | boot os => exact absurd hpc (hboot os)
  | main => exact ⟨n, Nat.le_refl n, .inl hpc⟩
  | stopped h => exact ⟨n, Nat.le_refl n, .inr ⟨h, hpc⟩⟩
  | hold l => exact holding_ends hpc (htime n)
  | trans e t l =>
    obtain ⟨k, _, ⟨a, i, hhold, _⟩ | ⟨h, hstop, _⟩⟩ := transition_ends hpc
    · obtain ⟨m, hm, hend⟩ := holding_ends hhold (htime _)
      exact ⟨m, by omega, hend⟩
    · exact ⟨n + k + 1, by omega, .inr ⟨h, hstop⟩⟩

end Gobbler.Proofs
