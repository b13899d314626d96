import Gobbler.Model.Types

namespace Gobbler

structure Conv where
  secs : Nat
  microsecs : Nat
  nanosecs : Nat
deriving DecidableEq, Repr

/-- An entry of `converter`: written in doubles, stored in unsigned longs. -/
def conv (secs microsecs nanosecs : ℚ) : Conv :=
  ⟨⌊secs⌋.toNat, ⌊microsecs⌋.toNat, ⌊nanosecs⌋.toNat⟩

def converter : Granularity → Conv
  | .secs => conv 1 (1 / 1000000) (1 / 1000000000)
  | .milliSecs => conv 1000 (1 / 1000) (1 / 1000000)
  | .microSecs => conv 1000000 1 (1 / 1000)
  | .nanoSecs => conv 1000000000 1000 1

variable {γ : Type} (w : World γ)

/-- `wctime`, as an exact number and not a `double`; `cputime` likewise. -/
def wctime (t : Granularity) : M γ ℚ := do
  let s ← get
  let tv := w.wall s.wallReads
  set { s with wallReads := s.wallReads + 1 }
  return (wrap (tv.sec * (converter t).secs + tv.usec * (converter t).microsecs) : ℚ)

def cputime (t : Granularity) : M γ ℚ := do
  let s ← get
  let ts := w.cpu s.cpuReads
  set { s with cpuReads := s.cpuReads + 1 }
  return (wrap (ts.sec * (converter t).secs + ts.nsec * (converter t).nanosecs) : ℚ)

/-- `srand` with the whole seconds of the CPU clock, as both samplers call it. -/
def reseed : M γ PUnit := do
  let now ← cputime w .secs
  let seed := (⌊now⌋ % 2 ^ 32).toNat
  modify fun s => { s with gen := w.srand seed s.gen }

def rand : M γ Nat := do
  let s ← get
  let (v, g) := w.rand s.gen
  set { s with gen := g }
  return v

/-- The `do … while (retval >= limit)` of `rand_lim`. -/
def randLimLoop (divisor limit : Int) : Nat → M γ Int
  | 0 => throw .spinning
  | n + 1 => do
    let r ← rand w
    let retval := (r : Int).tdiv divisor
    if limit ≤ retval then randLimLoop divisor limit n else return retval

def randLim (limit : Int) : M γ Int := do
  note (.randLim limit)
  defined (limit + 1 ≠ 0) .divisionByZero
  let divisor := (randMax : Int).tdiv (limit + 1)
  defined (divisor ≠ 0) .divisionByZero
  reseed w
  randLimLoop w divisor limit w.patience

/-- The `while ((randVal >= limit) && upper)` of `rand_intr`. -/
def randIntrLoop (limit : Nat) : Nat → Nat → M γ Nat
  | 0, randVal => return randVal
  | upper + 1, randVal => do
    if limit ≤ randVal then
      let randVal ← rand w
      randIntrLoop limit upper randVal
    else return randVal

def randIntr (first last : Nat) : M γ Nat := do
  note (.randIntr first last)
  let range := wrap (wrapSub last first + 1)
  defined (range ≠ 0) .divisionByZero
  let limit := randMax - randMax % range
  reseed w
  let randVal ← rand w
  let randVal ← randIntrLoop w limit 128 randVal
  return wrap (randVal % range + first)

end Gobbler
