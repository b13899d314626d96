import Gobbler.Model.Allocator
import Gobbler.Model.Vector

namespace Gobbler

open Effect

/-- An option of the command line. A number stands for what `atol` makes of
the argument, a vector for the bytes of its file, if it can be opened. -/
inductive Opt where
  | p (n : Int) | l (n : Int) | v | e (n : Int) | M (n : Int) | s (n : Int) | t (n : Int)
  | A (n : Int) | V (bytes : Option (List Char)) | I | S (n : Int) | L (n : Int) | h
deriving DecidableEq

/-- The locals of `loop_for` at the head of its loop; its `start` is always 0. -/
structure HoldLocals where
  execTime : ℚ
  t : Granularity
  now : ℚ
  run : ℚ
  i : Nat
  tmp : Int
deriving DecidableEq

/-- Where the program is: before the options, at the head of one of the loops
of `main`, `trans_rand_alloc` and `loop_for`, or no longer running. -/
inductive Pc where
  | boot (opts : List Opt)
  | main
  | trans (execTime : ℚ) (t : Granularity) (l : TransLocals)
  | hold (l : HoldLocals)
  | stopped (h : Halt)
deriving DecidableEq

variable {γ : Type} (w : World γ)

def resetMaxAllocPerPhase (allocCnt : Nat) : M γ PUnit :=
  modify fun s => { s with
    maxAllocPerPhase := allocCnt
    allocPrecision := true
    maxAllocPerPhaseByte := wrap (allocCnt * pageSize) }

/-- `_reset_stma_ltma`. The file is opened three times, and only the first two are checked. -/
def writeStmaLtma (stma ltma : Nat) : M γ PUnit :=
  match w.pdLen stma ltma with
  | .taken => return
  | .notOpened => throw (.exit "Something is Wrong in opening the file\n")
  | .notWritten => throw (.exit "Write is not working :(")
  | .notReopened => throw (.undefined .nullStream)
  | .notTaken => throw (.exit "Value not set right STMA:")

def resetStmaLtma (stma ltma : Nat) : M γ PUnit := do
  let stmaF := if stma = 0 ∧ ltma ≠ 0 then ltma / 2 else stma
  let ltmaF := if stma ≠ 0 ∧ ltma = 0 then wrap (stma * 2) else ltma
  if stma = 0 ∧ ltma = 0 then throw (.exit "Expect Non Zero Values\n")
  else if stmaF ≠ 0 ∧ ltmaF ≠ 0 then writeStmaLtma w stmaF ltmaF
  else throw (.exit "Something wrong\n")

/-- The `switch` of `main` on one option. -/
def option : Opt → M γ PUnit
  | .p n => modify fun s => { s with maxPhase := ofLong n }
  | .l n => modify fun s => { s with maxLimit := ofLong n }
  | .v => modify fun s => { s with verbose := false }
  | .e n => modify fun s => { s with wcet := n }
  | .M n => resetMaxAllocPerPhase (ofLong n)
  | .s n => modify fun s => { s with
      speed := if s.fileLst.length ≤ ofLong n then wrapSub s.fileLst.length 1 else ofLong n }
  | .t n =>
    if 5 ≤ ofLong n then throw (.exit "Wrong access type\n")
    else modify fun s => { s with accessType := ofLong n }
  | .A n => modify fun s => { s with allocSize := ofLong n, allocPrecision := true }
  | .V none => throw (.exit "Please provide valid file\n")
  | .V (some bytes) => modify fun s => { s with vector := true, vectorStream := bytes }
  | .I => modify fun s => { s with ipfvt := true, timeG := .nanoSecs }
  | .S n => modify fun s => { s with stma := ofLong n }
  | .L n => modify fun s => { s with ltma := ofLong n }
  | .h => throw (.exit "usage")

/-- The `while` of `main` on the options. -/
def options : List Opt → M γ PUnit
  | [] => return
  | o :: os => do
    option o
    options os

/-- The tracker is the first thing `malloc` is asked for. -/
def allocTrackInit : M γ PUnit :=
  if w.malloc 0 then modify fun s => { s with allocTrack := fun _ => [] }
  else throw (.exit "Malloc Failure for alloc_track\n")

/-- `main` up to its `do`. -/
def mainEnter (opts : List Opt) : M γ Pc := do
  options opts
  let s ← get
  modify fun s => { s with wcetMs := if s.wcet ≠ 0 then s.wcet else 55 }
  let start ← wctime w s.timeG
  modify fun s => { s with start }
  allocTrackInit w
  if s.stma ≠ 0 ∨ s.ltma ≠ 0 then resetStmaLtma w s.stma s.ltma
  return .main

/-- `loop_once`: the counters are summed and each goes up by one. -/
def loopOnce (last : ℚ) : M γ Int := do
  if last ≤ 0 then return 0
  else
    let s ← get
    set { s with num := s.num.map (· + 1) }
    return s.num.sum

/-- `loop_for` up to its `while`. -/
def loopForEnter (execTime : ℚ) (t : Granularity) : M γ HoldLocals := do
  let now ← cputime w t
  let lst ← currTrack
  return ⟨execTime, t, now, 0, lst.length, 0⟩

/-- The branch of `loop_for` on its index, which it leaves changed. -/
def loopForTouch (i : Nat) : M γ Nat := do
  if 0 < i then
    touch w (i - 1)
    return i - 1
  else
    let lst ← currTrack
    return lst.length

/-- One pass of the `while` of `loop_for`. -/
def loopForPass (l : HoldLocals) : M γ HoldLocals := do
  let loopStart := l.now
  let i ← loopForTouch w l.i
  let j ← loopOnce (l.execTime - l.run)
  let now ← cputime w l.t
  let lastLoop := now - loopStart
  return { l with i, tmp := l.tmp + j, now, run := l.run + lastLoop }

/-- `job` between its transition and its holding state. -/
def jobHold (execTime : ℚ) (t : Granularity) : M γ Pc := do
  let _ ← currTrack
  let l ← loopForEnter w execTime t
  return .hold l

/-- `job` up to the loop it enters. Skipping the locality returns 1 as well. -/
def job (execTime : ℚ) (t : Granularity) : M γ Pc := do
  modify fun s => { s with
    jobs := ⟨execTime, s.maxAllocPerPhase, s.maxAllocPerPhaseByte⟩ :: s.jobs }
  let now ← wctime w t
  let programEnd := now + execTime
  let now ← wctime w t
  if programEnd < now then
    let _ ← wctime w t
    modify fun s => { s with skipped := s.skipped + 1 }
    return .main
  else
    let s ← get
    if s.allocNomore then jobHold w execTime t
    else
      let l ← transRandAllocEnter w
      return .trans execTime t l

/-- The vector line of the next locality, if there is a vector. The result
tells whether `main` goes on. -/
def nextLocality : M γ Bool := do
  let s ← get
  if s.vector then
    match ← getNxtAlloc s.ipfvt with
    | none => return false
    | some (allocCnt, wcetMs) =>
      modify fun s => { s with wcetMs }
      resetMaxAllocPerPhase allocCnt
      return true
  else return true

/-- The row printed for each locality. -/
def report : M γ PUnit := do
  let s ← get
  if s.verbose then
    let now ← wctime w s.timeG
    modify fun s => { s with
      rows := ⟨s.curJob, now - s.start, s.fileCnt, s.anonCnt, wrap (s.fileCnt + s.anonCnt)⟩ ::
        s.rows }

/-- `cur_job++` on the `int`. -/
def curJobSucc : M γ PUnit := do
  let s ← get
  defined (s.curJob + 1 < 2 ^ 31) .overflow
  set { s with curJob := s.curJob + 1 }

/-- The limits that end `main`, and else the call of `job`. -/
def limits : M γ Pc := do
  modify fun s => { s with
    allocNomore := s.allocNomore || decide (s.maxLimit < wrap (s.fileCnt + s.anonCnt)) }
  curJobSucc
  let s ← get
  if s.maxPhase ≤ s.curJob ∨ s.allocNomore then return .stopped .returned
  else job w s.wcetMs s.timeG

/-- One pass of the `do … while(job(…))` of `main`, up to the loop it enters. -/
def mainPass : M γ Pc := do
  if ← nextLocality then
    report w
    limits w
  else return .stopped .returned

/-- The program from the head of one loop to the head of the next. -/
def turn : Pc → M γ Pc
  | .boot opts => mainEnter w opts
  | .main => mainPass w
  | .trans execTime t l => do
    if l.cnt ≠ 0 then
      let l ← transRandAllocPass w l
      return .trans execTime t l
    else
      transRandAllocLeave
      jobHold w execTime t
  | .hold l => do
    if l.run < l.execTime then
      let l ← loopForPass w l
      return .hold l
    else
      modify fun s => { s with phaseCnt := s.phaseCnt + 1 }
      return .main
  | .stopped h => return .stopped h

structure Machine (γ : Type) where
  st : St γ
  pc : Pc

def step (m : Machine γ) : Machine γ :=
  match turn w m.pc m.st with
  | .ok pc st => ⟨st, pc⟩
  | .error h st => ⟨st, .stopped h⟩

/-- `files.h`: the size and the paths of each class. An array has at least one
entry, and its length `max` is an enumeration constant, an `int`. -/
structure FileTable where
  classes : List (Nat × List String)
  nonempty : 0 < classes.length
  length_lt : classes.length < 2 ^ 31
  size_lt : ∀ c ∈ classes, c.1 < 2 ^ 64

/-- A class as `file_gen.sh` prints it: no node is marked, none found full. -/
def FileClass.ofTable (c : Nat × List String) : FileClass := ⟨c.1, c.2.map (⟨0, ·⟩), 0⟩

/-- `file_lst` as it is initialised. -/
def FileTable.fileLst (table : FileTable) : List FileClass :=
  table.classes.map FileClass.ofTable

/-- The globals before `main`. -/
def initial (table : FileTable) (mem : Nat → UInt8) (gen : γ) : St γ where
  maxPhase := maxAlloc
  maxLimit := maxLimitDefault
  speed := wrapSub table.classes.length 1
  accessType := 4
  allocSize := 0
  verbose := true
  vector := false
  ipfvt := false
  timeG := .secs
  wcet := 0
  stma := 0
  ltma := 0
  fileLst := table.fileLst
  curr := -1
  allocTrack := fun _ => []
  anonCnt := 0
  fileCnt := 0
  totalAllocPages := 0
  typeCnt := 0
  given := []
  refused := 0
  maxAllocPerPhase := maxTransitionCnt
  allocPrecision := false
  maxAllocPerPhaseByte := 0
  inTransition := false
  allocNomore := false
  phaseCnt := 0
  vectorStream := []
  wcetMs := 0
  start := 0
  curJob := 0
  num := List.replicate nums 0
  budgets := []
  jobs := []
  skipped := 0
  rows := []
  mem := mem
  fixHead := []
  writes := []
  gen := gen
  cpuReads := 0
  wallReads := 0
  mmaps := 0
  calls := []

/-- The program after `n` turns. -/
def run (table : FileTable) (opts : List Opt) (mem : Nat → UInt8) (gen : γ)
    (n : Nat) : Machine γ :=
  (step w)^[n] ⟨initial table mem gen, .boot opts⟩

end Gobbler
