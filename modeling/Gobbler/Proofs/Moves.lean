import Gobbler.Model.Machine
import Gobbler.Proofs.Request
import Gobbler.Proofs.Touch

namespace Gobbler.Proofs
open Effect

variable {γ : Type} {w : World γ}

/-- The bookkeeping and the place in the program. -/
structure View where
  book : Book
  pc : Pc

/-- The count and the time of a vector line, if it has the tokens they are read from. -/
def parseLine (isIpfvt : Bool) (line : List Char) : Option (Nat × ℚ) :=
  let delim := if isIpfvt then '\t' else ','
  let first := strtok delim (cString line)
  match (if isIpfvt then some 1 else first.1.map fun t => ofLong (atol t)),
    (strtok delim first.2).1 with
  | some allocCnt, some t => some (allocCnt, atof t)
  | _, _ => none

/-- The budget of a phase: none is set, or its bytes follow from its pages. -/
def Budgeted (b : Book) : Prop :=
  (b.maxAllocPerPhaseByte = 0 ∧ b.maxAllocPerPhase = maxTransitionCnt) ∨
    (b.allocPrecision = true ∧ b.maxAllocPerPhaseByte = wrap (b.maxAllocPerPhase * pageSize))

/-- What the options can do to the books. -/
structure Configured (b b' : Book) : Prop where
  ledger : b.allocTrack = (fun _ => []) → b'.toLedger = b.toLedger
  ready : Ready b → Ready b'
  access : b.accessType < 5 → b'.accessType < 5
  budget : Budgeted b → Budgeted b'
  fits : b.maxAllocPerPhase < 2 ^ 64 → b'.maxAllocPerPhase < 2 ^ 64
  transition : b'.inTransition = b.inTransition
  nomore : b'.allocNomore = b.allocNomore
  curJob : b'.curJob = b.curJob
  phaseCnt : b'.phaseCnt = b.phaseCnt
  num : b'.num = b.num
  budgets : b'.budgets = b.budgets
  jobs : b'.jobs = b.jobs
  skipped : b'.skipped = b.skipped
  rows : b'.rows = b.rows

/-- The value of the last `-p` so far. -/
def phasesSet : Nat → Opt → Nat
  | _, .p n => ofLong n
  | n, _ => n

/-- Whether there is a vector, and its bytes. -/
def vectorSet : Bool × List Char → Opt → Bool × List Char
  | _, .V (some bytes) => (true, bytes)
  | v, _ => v

def traceSet : Bool → Opt → Bool
  | _, .I => true
  | t, _ => t

def unitSet : Granularity → Opt → Granularity
  | _, .I => .nanoSecs
  | g, _ => g

/-- The value of the last `-e` so far. -/
def wcetSet : Int → Opt → Int
  | _, .e n => n
  | wcet, _ => wcet

/-- What the options have set when none of them ended the program. -/
structure Started (opts : List Opt) (b b' : Book) : Prop where
  phases : b'.maxPhase = opts.foldl phasesSet b.maxPhase
  vector : (b'.vector, b'.vectorStream) = opts.foldl vectorSet (b.vector, b.vectorStream)
  trace : b'.ipfvt = opts.foldl traceSet b.ipfvt
  unit : b'.timeG = opts.foldl unitSet b.timeG
  wcet : b'.wcet = opts.foldl wcetSet b.wcet

/-- `main` is about to run its first locality, for the time of `-e` when it was given. -/
structure Entered (opts : List Opt) (b b' : Book) : Prop extends Started opts b b' where
  time : b'.wcetMs = if b'.wcet ≠ 0 then (b'.wcet : ℚ) else 55

/-- The ends `main` may come to before its first locality. -/
inductive BootHalt : Halt → Prop
  | usage : BootHalt (.exit "usage")
  | access : BootHalt (.exit "Wrong access type\n")
  | file : BootHalt (.exit "Please provide valid file\n")
  | memory : BootHalt (.exit "Malloc Failure for alloc_track\n")
  | zero : BootHalt (.exit "Expect Non Zero Values\n")
  | wrong : BootHalt (.exit "Something wrong\n")
  | notOpened : BootHalt (.exit "Something is Wrong in opening the file\n")
  | notWritten : BootHalt (.exit "Write is not working :(")
  | notReopened : BootHalt (.undefined .nullStream)
  | notTaken : BootHalt (.exit "Value not set right STMA:")

def unread (b : Book) (rest : List Char) : Book := { b with vectorStream := rest }

/-- The books after a vector line was read. -/
def relined (b : Book) (rest : List Char) (allocCnt : Nat) (wcetMs : ℚ) : Book :=
  { b with
    vectorStream := rest
    wcetMs := wcetMs
    maxAllocPerPhase := allocCnt
    allocPrecision := true
    maxAllocPerPhaseByte := wrap (allocCnt * pageSize) }

inductive Lined (b : Book) : Book → Prop
  | plain (vector : b.vector = false) : Lined b b
  | line {line rest : List Char} {allocCnt : Nat} {wcetMs : ℚ} (vector : b.vector = true)
    (got : getline b.vectorStream = some (line, rest))
    (parsed : parseLine b.ipfvt line = some (allocCnt, wcetMs)) :
    Lined b (relined b rest allocCnt wcetMs)

/-- The books after the row of a locality and the test of the limits. -/
def limited (b : Book) (rows : List Row) : Book :=
  { b with
    rows := rows
    allocNomore := b.allocNomore || decide (b.maxLimit < wrap (b.fileCnt + b.anonCnt))
    curJob := b.curJob + 1 }

/-- `main` has read its line, printed its row and tested its limits. -/
inductive Located (b : Book) : Book → Prop
  | intro {b' : Book} (rows : List Row) (lined : Lined b b') : Located b (limited b' rows)

/-- The limits of `main` are reached. -/
def Over (b : Book) : Prop := b.maxPhase ≤ b.curJob ∨ b.allocNomore = true

instance (b : Book) : Decidable (Over b) :=
  inferInstanceAs (Decidable (b.maxPhase ≤ b.curJob ∨ b.allocNomore = true))

def called (b : Book) : Book :=
  { b with jobs := ⟨b.wcetMs, b.maxAllocPerPhase, b.maxAllocPerPhaseByte⟩ :: b.jobs }

def passedOver (b : Book) : Book := { called b with skipped := b.skipped + 1 }

/-- The books at the head of the loop of a transition. -/
def opened (b : Book) (cnt : Nat) : Book :=
  { b with
    curr := b.curr + 1
    inTransition := true
    budgets := cnt :: b.budgets }

/-- The counts with which a transition may start, and their anonymous slices. -/
inductive Start (b : Book) : Nat → Int → Prop
  | precise (h : b.allocPrecision = true) : Start b b.maxAllocPerPhase (-1)
  | drawn {cnt : Nat} (h : b.allocPrecision = false) (low : 5 ≤ cnt) (high : cnt ≤ 18) :
    Start b cnt (cnt / fileRatio : Nat)

/-- Between two readings of the wall clock more than `execTime` went by. -/
def Late (w : World γ) (t : Granularity) (execTime : ℚ) : Prop :=
  ∃ n, wallTime w t n + execTime < wallTime w t (n + 1)

def left (b : Book) : Book := { b with inTransition := false }

/-- The locals of `trans_rand_alloc` after a request. -/
def nextLocals (l : TransLocals) (typ : MemType) (cnt : Nat) : TransLocals :=
  if typ = .typeMax then { l with cnt := wrapSub cnt 1 }
  else { l with cnt := cnt, anonSlice := if typ = .anon then l.anonSlice - 1 else l.anonSlice }

/-- Moves that change neither the ledger nor the budgets. -/
inductive Idle (w : World γ) (b : Book) : Pc → Book → Pc → Prop
  | ended (vector : b.vector = true) (empty : getline b.vectorStream = none) :
    Idle w b .main b (.stopped .returned)
  | unread {line rest : List Char} (vector : b.vector = true)
    (got : getline b.vectorStream = some (line, rest))
    (unparsed : parseLine b.ipfvt line = none) :
    Idle w b .main (unread b rest) (.stopped (.undefined .nullToken))
  | leave {execTime : ℚ} {t : Granularity} {l : TransLocals} {n i : Nat} (done : l.cnt = 0)
    (track : InTracker b) :
    Idle w b (.trans execTime t l) (left b) (.hold ⟨execTime, t, cpuTime w t n, 0, i, 0⟩)
  | leaveHalt {execTime : ℚ} {t : Granularity} {l : TransLocals} (done : l.cnt = 0)
    (track : ¬InTracker b) :
    Idle w b (.trans execTime t l) (left b) (.stopped (.undefined .trackIndex))
  | hold {l l' : HoldLocals} (num : List Int) (time : l'.execTime = l.execTime) :
    Idle w b (.hold l) { b with num := num } (.hold l')
  | holdHalt {l : HoldLocals} {h : Halt} (why : Trouble w b h) :
    Idle w b (.hold l) b (.stopped h)
  | held {l : HoldLocals} : Idle w b (.hold l) { b with phaseCnt := b.phaseCnt + 1 } .main
  | stopped {h : Halt} : Idle w b (.stopped h) b (.stopped h)

/-- Why the program is no longer running, if it is not. -/
def halted : Pc → Option Halt
  | .stopped h => some h
  | _ => none

/-- Everything a turn of the program can do to the books. -/
inductive Move (w : World γ) : View → View → Prop
  | boot {b b' : Book} {opts : List Opt} {pc : Pc} (configured : Configured b b')
    (ledger : b'.toLedger = b.toLedger) (next : pc = .main ∨ ∃ h, pc = .stopped h ∧ BootHalt h)
    (started : pc = .main → Entered opts b b') :
    Move w ⟨b, .boot opts⟩ ⟨b', pc⟩
  | idle {b b' : Book} {pc pc' : Pc} (h : Idle w b pc b' pc') : Move w ⟨b, pc⟩ ⟨b', pc'⟩
  | finish {b b' : Book} (located : Located b b') (stop : Over b') :
    Move w ⟨b, .main⟩ ⟨b', .stopped .returned⟩
  | overrun {b b' : Book} (located : Located b b') (high : 2 ^ 31 ≤ b'.curJob) :
    Move w ⟨b, .main⟩ ⟨{ b' with curJob := b.curJob }, .stopped (.undefined .overflow)⟩
  | skip {b b' : Book} (located : Located b b') (go : ¬Over b')
    (late : Late w b'.timeG b'.wcetMs) :
    Move w ⟨b, .main⟩ ⟨passedOver b', .main⟩
  | enter {b b' : Book} {cnt i : Nat} {anonSlice : Int} (located : Located b b') (go : ¬Over b')
    (room : b'.curr < maxAlloc) (start : Start (called b') cnt anonSlice) :
    Move w ⟨b, .main⟩ ⟨opened (called b') cnt, .trans b'.wcetMs b'.timeG ⟨cnt, i, anonSlice⟩⟩
  | enterHalt {b b' : Book} {h : Halt} (located : Located b b') (go : ¬Over b')
    (why : Forced w h ∨
      (h = .exit "reached maximum phase transitions\n" ∧ (maxAlloc : Int) ≤ b'.curr)) :
    Move w ⟨b, .main⟩ ⟨called b', .stopped h⟩
  | request {b : Book} {execTime : ℚ} {t : Granularity} {l : TransLocals} {typ : MemType}
    {cnt : Nat} {ledger : Ledger} (more : l.cnt ≠ 0)
    (request : Request w.pageSize b l.anonSlice l.cnt typ cnt ledger) :
    Move w ⟨b, .trans execTime t l⟩ ⟨withLedger b ledger, .trans execTime t (nextLocals l typ cnt)⟩
  | trouble {b : Book} {execTime : ℚ} {t : Granularity} {l : TransLocals} {typ : MemType}
    {cnt : Nat} {ledger : Ledger} {h : Halt} (more : l.cnt ≠ 0)
    (request : Request w.pageSize b l.anonSlice l.cnt typ cnt ledger) (served : typ ≠ .typeMax)
    (why : Trouble w (withLedger b ledger) h) :
    Move w ⟨b, .trans execTime t l⟩ ⟨withLedger b ledger, .stopped h⟩
  | aborted {b : Book} {execTime : ℚ} {t : Granularity} {l : TransLocals} {ledger : Ledger}
    {h : Halt} (more : l.cnt ≠ 0) (aborted : Aborted w b l.anonSlice h ledger) :
    Move w ⟨b, .trans execTime t l⟩ ⟨withLedger b ledger, .stopped h⟩

end Gobbler.Proofs
