import Gobbler.Model.Machine

namespace Gobbler.Source
open Effect

variable {γ : Type} (w : World γ)

/-- `loop_for`, observed for at most `passes` passes of its loop. -/
def loopFor (passes : Nat) (execTime : ℚ) (t : Granularity) : M γ Int := do
  let l ← loopForEnter w execTime t
  let l ← repeatWhile .spinning (fun l => l.run < l.execTime) (loopForPass w) passes l
  return l.tmp

/-- `job`: whether it returned 1. -/
def job (passes : Nat) (execTime : ℚ) (t : Granularity) : M γ Bool := do
  modify fun s => { s with
    jobs := ⟨execTime, s.maxAllocPerPhase, s.maxAllocPerPhaseByte⟩ :: s.jobs }
  let now ← wctime w t
  let programEnd := now + execTime
  let now ← wctime w t
  if programEnd < now then
    let _ ← wctime w t
    modify fun s => { s with skipped := s.skipped + 1 }
    return true
  else
    let s ← get
    let failed ← if s.allocNomore then pure 0 else transRandAlloc w passes
    if failed ≠ 0 then return false
    else
      let _ ← currTrack
      let _ ← loopFor w passes execTime t
      modify fun s => { s with phaseCnt := s.phaseCnt + 1 }
      return true

/-- The `do … while(job(…))` of `main`, observed for at most so many localities. -/
def mainLoop (passes : Nat) : Nat → M γ PUnit
  | 0 => throw .spinning
  | n + 1 => do
    if ← nextLocality then
      report w
      modify fun s => { s with
        allocNomore := s.allocNomore || decide (s.maxLimit < wrap (s.fileCnt + s.anonCnt)) }
      curJobSucc
      let s ← get
      if s.maxPhase ≤ s.curJob ∨ s.allocNomore then return
      else if ← job w passes s.wcetMs s.timeG then mainLoop passes n
      else return
    else return

/-- `main`, observed for at most `passes` passes of each of its loops. -/
def main (passes : Nat) (opts : List Opt) : M γ PUnit := do
  let _ ← mainEnter w opts
  mainLoop w passes passes

end Gobbler.Source
