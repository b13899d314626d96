import Mathlib
import Gobbler.Lib.Effect

namespace Gobbler

/-- `RAND_MAX` of the C library. -/
def randMax : Nat := 2147483647
def maxAlloc : Nat := 60000
def maxAllocPerSe : Nat := 500
def maxTransitionCnt : Nat := 150
def maxLimitDefault : Nat := 100000000
/-- The constant `PAGE_SIZE`; the page size of the running system is a
separate value, see `World.pageSize`. -/
def pageSize : Nat := 4096
def fileRatio : Nat := 4
def nums : Nat := 4096

/-- `lt_t` is an unsigned long: its arithmetic wraps. -/
@[irreducible] def wrap (n : Nat) : Nat := n % 2 ^ 64
@[irreducible] def wrapSub (a b : Nat) : Nat := (a + (2 ^ 64 - b % 2 ^ 64)) % 2 ^ 64

theorem wrap_of_lt {n : Nat} (h : n < 2 ^ 64) : wrap n = n := by
  simp only [wrap]
  omega

theorem wrapSub_of_le {a b : Nat} (h : b ≤ a) (ha : a < 2 ^ 64) : wrapSub a b = a - b := by
  simp only [wrapSub]
  omega

/-- The conversions between `long` and `lt_t`. -/
def toLong (n : Nat) : Int := if n < 2 ^ 63 then (n : Int) else (n : Int) - 2 ^ 64
def ofLong (x : Int) : Nat := (x % 2 ^ 64).toNat

theorem ofLong_lt (x : Int) : ofLong x < 2 ^ 64 := by
  unfold ofLong
  omega

inductive MemType where
  | file | anon | typeMax
deriving DecidableEq, Repr

/-- `mem_type_t` as `rand_lim(type_max)` produces it. -/
def MemType.ofLong (x : Int) : MemType :=
  if x = 0 then .file else if x = 1 then .anon else .typeMax

/-- `file_path`: a mark and a path. -/
structure FileNode where
  alloc : Int
  path : String
deriving DecidableEq, Repr

/-- `file_lst_size_t`. The closing NULL path is the end of the list. -/
structure FileClass where
  size : Nat
  paths : List FileNode
  filled : Nat
deriving DecidableEq, Repr

/-- `alloc_list_per_se_t`: one mapping of a phase. -/
structure AllocRec where
  addr : Nat
  len : Nat
  type : MemType
deriving DecidableEq, Repr

inductive Granularity where
  | secs | milliSecs | microSecs | nanoSecs
deriving DecidableEq, Repr

/-- Actions to which C gives no meaning. The model stops there. -/
inductive Undefined where
  | divisionByZero | trackIndex | fileIndex | patternIndex | nullToken | nullStream | overflow
deriving DecidableEq, Repr

/-- Why the program is no longer running. `exit` carries the text that was
printed last; `spinning` is a loop that outlasted the observation. -/
inductive Halt where
  | returned
  | exit (text : String)
  | undefined (what : Undefined)
  | spinning
deriving DecidableEq, Repr

/-- What becomes of the values written to `/proc/<pid>/pd_len`. -/
inductive PdLen where
  | taken | notOpened | notWritten | notReopened | notTaken
deriving DecidableEq, Repr

structure Timespec where
  sec : Nat
  nsec : Nat
  nsec_lt : nsec < 1000000000

structure Timeval where
  sec : Nat
  usec : Nat
  usec_lt : usec < 1000000

/-- What the machine and the C library answer. `γ` is the hidden state of
`rand`; clocks, files, mappings and `malloc` answer by the number of the request. -/
structure World (γ : Type) where
  pageSize : Nat
  srand : Nat → γ → γ
  rand : γ → Nat × γ
  rand_le : ∀ g, (rand g).1 ≤ randMax
  cpu : Nat → Timespec
  wall : Nat → Timeval
  opens : Nat → Bool
  mmap : Nat → Option Nat
  mmap_ne_zero : ∀ n a, mmap n = some a → a ≠ 0
  madvise : Nat → Bool
  malloc : Nat → Bool
  pdLen : Nat → Nat → PdLen
  patience : Nat

/-- The globals set by the command line only. -/
structure Options where
  maxPhase : Nat
  maxLimit : Nat
  speed : Nat
  accessType : Nat
  allocSize : Nat
  verbose : Bool
  vector : Bool
  ipfvt : Bool
  timeG : Granularity
  wcet : Int
  stma : Nat
  ltma : Nat

/-- The file pool, the tracker and the counters. `typeCnt` is the static `cnt`
of `randomize_alloc_type`. The last two fields are not in the source: they
record the file nodes handed out, newest first, and the requests that found
no node. -/
structure Ledger where
  fileLst : List FileClass
  curr : Int
  allocTrack : Nat → List AllocRec
  anonCnt : Nat
  fileCnt : Nat
  totalAllocPages : Nat
  typeCnt : Nat
  given : List (Nat × Nat)
  refused : Nat

/-- A call of `job`: its argument and the budget it finds. -/
structure JobCall where
  execTime : ℚ
  maxAllocPerPhase : Nat
  maxAllocPerPhaseByte : Nat
deriving DecidableEq

/-- A row of the report, without the process id and the fault counts. -/
structure Row where
  curJob : Nat
  duration : ℚ
  fileCnt : Nat
  anonCnt : Nat
  total : Nat

/-- Everything `touch` only reads. The last four fields are not in the source:
the budgets with which transitions started, the calls of `job`, those that
skipped their locality, and the rows printed, each newest first. -/
structure Book extends Options, Ledger where
  maxAllocPerPhase : Nat
  allocPrecision : Bool
  maxAllocPerPhaseByte : Nat
  inTransition : Bool
  allocNomore : Bool
  phaseCnt : Nat
  vectorStream : List Char
  wcetMs : ℚ
  start : ℚ
  curJob : Nat
  num : List Int
  budgets : List Nat
  jobs : List JobCall
  skipped : Nat
  rows : List Row

/-- `fix_bk_node`. -/
structure FixNode where
  addr : Nat
  loc : Nat
deriving DecidableEq, Repr

/-- What `touch` changes: the bytes of the mappings and the list of the fix
pattern. A byte not yet mapped stands for its value when it will be. `writes`
records the phase and the address of every byte written, newest first. -/
structure Memory where
  mem : Nat → UInt8
  fixHead : List FixNode
  writes : List (Int × Nat)

/-- The calls whose arguments matter for the safety of the arithmetic. -/
inductive Call where
  | randLim (limit : Int)
  | randIntr (first last : Nat)
  | strideGetOffset (len : Nat)
  | fileLst (index : Nat)
deriving DecidableEq, Repr

/-- How far the program has consumed the answers of the world. `calls` records
the calls named above, newest first. -/
structure Env (γ : Type) where
  gen : γ
  cpuReads : Nat
  wallReads : Nat
  mmaps : Nat
  calls : List Call

structure St (γ : Type) extends Book, Memory, Env γ

/-- C functions on the globals: they return, or they end the program. -/
abbrev M (γ : Type) := EStateM Halt (St γ)

variable {γ : Type}

def note (c : Call) : M γ PUnit := modify fun s => { s with calls := c :: s.calls }

/-- What follows has a meaning in C only under `c`. -/
def defined (c : Prop) [Decidable c] (what : Undefined) : M γ PUnit :=
  if c then pure ⟨⟩ else throw (.undefined what)

end Gobbler
