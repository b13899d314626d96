import Gobbler.Proofs.Runs

namespace Gobbler.Proofs
open Effect

variable {γ : Type}

def perSecond : Granularity → Nat
  | .secs => 1
  | .milliSecs => 1000
  | .microSecs => 1000000
  | .nanoSecs => 1000000000

/-- The time of a clock in the unit asked for, without rounding. -/
def exactTime (t : Granularity) (sec sub unit : Nat) : ℚ := perSecond t * (sec + sub / unit)

/-- Readings of the CPU clock that the unit can hold and that have no more
nanoseconds than the factor zero may drop. -/
def CpuPrecise (ts : Timespec) : Granularity → Prop
  | .secs => ts.sec < 2 ^ 64
  | .milliSecs => ts.sec * 1000 < 2 ^ 64 ∧ ts.nsec < 1000000
  | .microSecs => ts.sec * 1000000 < 2 ^ 64 ∧ ts.nsec < 1000
  | .nanoSecs => ts.sec * 1000000000 + ts.nsec < 2 ^ 64

/-- The same for the wall clock, which has microseconds. -/
def WallPrecise (tv : Timeval) : Granularity → Prop
  | .secs => tv.sec < 2 ^ 64
  | .milliSecs => tv.sec * 1000 < 2 ^ 64 ∧ tv.usec < 1000
  | .microSecs => tv.sec * 1000000 + tv.usec < 2 ^ 64
  | .nanoSecs => tv.sec * 1000000000 + tv.usec * 1000 < 2 ^ 64

/-- The table holds whole factors: those below one are stored as zero. -/
theorem converter_eq (t : Granularity) :
    converter t = ⟨perSecond t, perSecond t / 1000000, perSecond t / 1000000000⟩ := by
  cases t <;> decide +kernel

/-- A product of whole factors is within one unit of the exact time just when it
does not wrap and the part of the factor that was cut off amounts to less than
one unit. -/
theorem converted_iff (factor sec sub : Nat) {unit : Nat} (hu : 0 < unit) :
    |(wrap (sec * factor + sub * (factor / unit)) : ℚ) - factor * (sec + sub / unit)| < 1 ↔
      sec * factor + sub * (factor / unit) < 2 ^ 64 ∧ sub * (factor % unit) < unit := by
  have hunit : (0 : ℚ) < unit := by exact_mod_cast hu
  have hexact : (factor : ℚ) * (sec + sub / unit) =
      (sec * factor + sub * (factor / unit) : Nat) + (sub * (factor % unit) : Nat) / unit := by
    have hfactor : (factor : ℚ) = unit * (factor / unit : Nat) + (factor % unit : Nat) := by
      exact_mod_cast (Nat.div_add_mod factor unit).symm
    push_cast
    field_simp
    linear_combination (sub : ℚ) * hfactor
  have hcut : (0 : ℚ) ≤ (sub * (factor % unit) : Nat) / unit := by positivity
  rw [hexact]
  set n := sec * factor + sub * (factor / unit)
  constructor
  · intro h
    obtain ⟨hlow, _⟩ := abs_lt.mp h
    have hn : n < 2 ^ 64 := by
      by_contra hwrap
      have hless : (wrap n : ℚ) + 1 ≤ n := by
        have hnat : wrap n + 1 ≤ n := by
          simp only [wrap]
          omega
        exact_mod_cast hnat
      linarith
    refine ⟨hn, ?_⟩
    have hsame : wrap n = n := wrap_of_lt (by omega)
    rw [hsame] at hlow
    have hone : ((sub * (factor % unit) : Nat) : ℚ) / unit < 1 := by linarith
    exact_mod_cast (div_lt_one hunit).mp hone
  · intro hq
    obtain ⟨hn, hsub⟩ := hq
    have hsame : wrap n = n := wrap_of_lt (by omega)
    have hone : ((sub * (factor % unit) : Nat) : ℚ) / unit < 1 := by
      rw [div_lt_one hunit]
      exact_mod_cast hsub
    rw [hsame, abs_lt]
    constructor <;> linarith

theorem cpuTime_precise (w : World γ) (t : Granularity) (n : Nat) :
    |cpuTime w t n - exactTime t (w.cpu n).sec (w.cpu n).nsec 1000000000| < 1 ↔
      CpuPrecise (w.cpu n) t := by
  have hlt := (w.cpu n).nsec_lt
  rw [cpuTime, exactTime, converter_eq]
  have hiff := converted_iff (perSecond t) (w.cpu n).sec (w.cpu n).nsec
    (show 0 < 1000000000 by decide)
  push_cast at hiff ⊢
  rw [hiff]
  cases t <;> simp only [CpuPrecise, perSecond] <;> omega

theorem wallTime_precise (w : World γ) (t : Granularity) (n : Nat) :
    |wallTime w t n - exactTime t (w.wall n).sec (w.wall n).usec 1000000| < 1 ↔
      WallPrecise (w.wall n) t := by
  have hlt := (w.wall n).usec_lt
  rw [wallTime, exactTime, converter_eq]
  have hiff := converted_iff (perSecond t) (w.wall n).sec (w.wall n).usec
    (show 0 < 1000000 by decide)
  push_cast at hiff ⊢
  rw [hiff]
  cases t <;> simp only [WallPrecise, perSecond] <;> omega

/-- Each clock is within one unit of the exact time just for these readings. -/
theorem clock_precision (w : World γ) (t : Granularity) (s : St γ) :
    (Ends (cputime w t) s
        (fun v _ => |v - exactTime t (w.cpu s.cpuReads).sec (w.cpu s.cpuReads).nsec 1000000000| < 1)
        (fun _ _ => False) ↔ CpuPrecise (w.cpu s.cpuReads) t) ∧
      (Ends (wctime w t) s
        (fun v _ => |v - exactTime t (w.wall s.wallReads).sec (w.wall s.wallReads).usec 1000000| < 1)
        (fun _ _ => False) ↔ WallPrecise (w.wall s.wallReads) t) :=
  ⟨cpuTime_precise w t s.cpuReads, wallTime_precise w t s.wallReads⟩

/-- A machine whose CPU clock has run for a millisecond and whose wall clock
shows as much after a whole second. -/
def milliWorld : World Unit :=
  { plainWorld with
    cpu := fun _ => ⟨0, 1000000, by decide⟩
    wall := fun _ => ⟨1, 1000, by decide⟩ }

/-- In milliseconds both clocks jump from one whole second to the next. -/
theorem clock_jumps :
    let s : St Unit := initial smallTable (fun _ => 0) ()
    ¬Ends (cputime milliWorld .milliSecs) s
        (fun v _ => |v - exactTime .milliSecs 0 1000000 1000000000| < 1) (fun _ _ => False) ∧
      ¬Ends (cputime milliWorld .microSecs) s
        (fun v _ => |v - exactTime .microSecs 0 1000000 1000000000| < 1) (fun _ _ => False) ∧
      ¬Ends (wctime milliWorld .milliSecs) s
        (fun v _ => |v - exactTime .milliSecs 1 1000 1000000| < 1) (fun _ _ => False) := by
  refine ⟨fun h => ?_, fun h => ?_, fun h => ?_⟩
  · exact absurd ((cpuTime_precise milliWorld .milliSecs 0).mp h).2 (by decide)
  · exact absurd ((cpuTime_precise milliWorld .microSecs 0).mp h).2 (by decide)
  · exact absurd ((wallTime_precise milliWorld .milliSecs 0).mp h).2 (by decide)

end Gobbler.Proofs
