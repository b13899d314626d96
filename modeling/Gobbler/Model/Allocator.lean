import Gobbler.Model.Pattern

namespace Gobbler

open Effect

/-- The first node of the class that is not marked. -/
def findAvailNode (paths : List FileNode) : Option Nat :=
  paths.findIdx? fun node => node.alloc = 0

/-- The `for(i = 0; i < max; i++)` of `get_file_path`, from class `i` on. It
returns the node, the length and the classes as it leaves them. -/
def getFilePathLoop : List FileClass → Nat → Nat → Option (Nat × Nat) × Nat × List FileClass
  | [], _, len => (none, len, [])
  | c :: cs, i, len =>
    if len ≤ c.size then
      match findAvailNode c.paths with
      | some j => (some (i, j), c.size, c :: cs)
      | none =>
        let (node, len', cs') := getFilePathLoop cs (i + 1) len
        (node, len', { c with filled := 1 } :: cs')
    else
      let (node, len', cs') := getFilePathLoop cs (i + 1) len
      (node, len', c :: cs')

/-- `node->alloc = alloc_suc`, for node `j` of class `i`. -/
def markNode (lst : List FileClass) (i j : Nat) (allocSuc : Int) : List FileClass :=
  lst.modify i fun c => { c with
    paths := c.paths.modify j fun node => { node with alloc := allocSuc } }

variable {γ : Type} (w : World γ)

def getFilePath (len : Nat) : M γ (Option (Nat × Nat) × Nat) := do
  let s ← get
  let (node, len, lst) := getFilePathLoop s.fileLst 0 len
  set { s with fileLst := lst }
  return (node, len)

def goToNxtPhase : M γ PUnit := do
  let s ← get
  if (maxAlloc : Int) ≤ s.curr then throw (.exit "reached maximum phase transitions\n")
  else set { s with curr := s.curr + 1 }

/-- `alloc_track[curr]`, an array of `MAX_ALLOC` entries. -/
def currTrack : M γ (List AllocRec) := do
  let s ← get
  defined (0 ≤ s.curr ∧ s.curr < maxAlloc) .trackIndex
  return s.allocTrack s.curr.toNat

def addNewAlloc (address len : Nat) (type : MemType) : M γ Int := do
  let lst ← currTrack
  if maxAllocPerSe ≤ lst.length then return -1
  else
    modify fun s => { s with
      allocTrack := Function.update s.allocTrack s.curr.toNat (lst ++ [⟨address, len, type⟩]) }
    return 1

/-- `cnt++` on the static `int`. -/
def typeCntSucc : M γ PUnit := do
  let s ← get
  defined (s.typeCnt + 1 < 2 ^ 31) .overflow
  set { s with typeCnt := s.typeCnt + 1 }

/-- The type the request counter asks for. -/
def countedType (typeCnt : Nat) : MemType :=
  if typeCnt % fileRatio = 0 ∧ typeCnt ≠ 0 then .anon else .file

def randomizeAllocType (anonSlice : Int) : M γ MemType := do
  let s ← get
  let type ←
    if anonSlice < 0 then pure (countedType s.typeCnt)
    else if anonSlice ≠ 0 then do
      let x ← randLim w 2
      pure (MemType.ofLong x)
    else pure .file
  typeCntSucc
  return type

/-- `file_lst[i].size`. -/
def fileSize (i : Nat) : M γ Nat := do
  note (.fileLst i)
  let s ← get
  match s.fileLst[i]? with
  | some c => return c.size
  | none => throw (.undefined .fileIndex)

/-- The `while(l)` of `randomize_alloc_len`, which leaves the index it drew
last even when that class is too large. -/
def randomizeAllocLenLoop (maxReq : Nat) : Nat → Nat → M γ Nat
  | 0, i => return i
  | l + 1, _ => do
    let s ← get
    let i ← randIntr w 0 s.speed
    let size ← fileSize i
    if maxReq < size then randomizeAllocLenLoop maxReq l i else return i

def randomizeAllocLen : M γ Nat := do
  let s ← get
  let maxReq := wrap (s.maxLimit * pageSize)
  let size ← fileSize 0
  if maxReq ≤ size then return size
  else
    let i ← randomizeAllocLenLoop w maxReq 10 0
    fileSize i

def randomizeAllocCount (precision : Bool) : M γ Nat := do
  let s ← get
  if precision then return s.maxAllocPerPhase else randIntr w 5 (maxTransitionCnt >>> 3)

def touch (i : Nat) : M γ PUnit := do
  let s ← get
  if 0 ≤ s.curr then
    let lst ← currTrack
    match lst[i]? with
    | some r => pattern w s.accessType r.addr r.len
    | none => return

/-- `touch(list_count - 1)`, `n` times. -/
def loopN (n : Nat) : M γ PUnit :=
  times (do
    let lst ← currTrack
    touch w (wrapSub lst.length 1)) n

/-- `mmapper`; the path itself only decides whether the file can be opened. Nothing
reads the length to which it sets the file, and a failure there is only a warning. -/
def mmapper (type : MemType) : M γ Nat := do
  let s ← get
  set { s with mmaps := s.mmaps + 1 }
  if type = .file ∧ w.opens s.mmaps = false then throw (.exit "Failed path: ")
  match w.mmap s.mmaps with
  | none => throw (.exit "mmap")
  | some map => if w.madvise s.mmaps then return map else throw (.exit "madvise")

/-- A length cut to the byte budget of the phase, if there is one. -/
def clip (maxAllocPerPhaseByte len : Nat) : Nat :=
  if maxAllocPerPhaseByte ≠ 0 ∧ maxAllocPerPhaseByte < len then maxAllocPerPhaseByte else len

/-- `alloc`, with the length and the node it leaves in its arguments. -/
def alloc (type : MemType) (len : Nat) : M γ (Nat × Nat × Option (Nat × Nat)) := do
  let (node, len) ←
    if type = .anon then do
      if len = 0 then
        let size ← fileSize 0
        pure (none, size)
      else pure (none, len)
    else getFilePath len
  if type ≠ .anon ∧ node = none then return (0, len, none)
  else
    let s ← get
    let len := clip s.maxAllocPerPhaseByte len
    let map ← mmapper w type
    return (map, len, node)

/-- The counters of `random_allocator_one`, after a mapping of `pageCnt` pages. -/
def countPages (type : MemType) (pageCnt : Nat) : M γ PUnit :=
  modify fun s => { s with
    totalAllocPages := wrap (s.totalAllocPages + pageCnt)
    fileCnt := if type = .file then wrap (s.fileCnt + pageCnt) else s.fileCnt
    anonCnt := if type = .anon then wrap (s.anonCnt + pageCnt) else s.anonCnt }

/-- The mark on the node once the tracker has taken the record, and the error
exit when it has not. -/
def settle (node : Option (Nat × Nat)) (allocSuc : Int) : M γ PUnit :=
  match node with
  | some (i, j) =>
    if 0 < allocSuc then
      modify fun s => { s with
        fileLst := markNode s.fileLst i j allocSuc
        given := (i, j) :: s.given }
    else if allocSuc < 0 then throw (.exit "Failed to add new tracker")
    else return
  | none => if allocSuc < 0 then throw (.exit "Failed to add new tracker") else return

/-- `random_allocator_one`, with the count it leaves in its argument. -/
def randomAllocatorOne (anonSlice : Int) (cnt : Nat) : M γ (MemType × Nat) := do
  let allocType ← randomizeAllocType w anonSlice
  let allocLen ← randomizeAllocLen w
  let (addr, allocLen, node) ← alloc w allocType allocLen
  if addr = 0 then
    modify fun s => { s with refused := s.refused + 1 }
    return (.typeMax, cnt)
  else
    let allocSuc ← addNewAlloc addr allocLen allocType
    let pageCnt := allocLen / w.pageSize
    countPages allocType pageCnt
    settle node allocSuc
    let s ← get
    if s.allocPrecision then
      return (allocType, if cnt < pageCnt then 0 else cnt - pageCnt)
    else return (allocType, wrapSub cnt 1)

/-- The locals of `trans_rand_alloc` at the head of its loop. -/
structure TransLocals where
  cnt : Nat
  i : Nat
  anonSlice : Int
deriving DecidableEq

/-- `trans_rand_alloc` up to its `while(cnt)`. -/
def transRandAllocEnter : M γ TransLocals := do
  let i ← randLim w 3
  goToNxtPhase
  let s ← get
  let cnt ← randomizeAllocCount w s.allocPrecision
  modify fun s => { s with inTransition := true, budgets := cnt :: s.budgets }
  return ⟨cnt, i.toNat, if s.allocPrecision then -1 else (cnt / fileRatio : Nat)⟩

/-- One pass of the `while(cnt)` of `trans_rand_alloc`. -/
def transRandAllocPass (l : TransLocals) : M γ TransLocals := do
  let (typ, cnt) ← randomAllocatorOne w l.anonSlice l.cnt
  if typ = .typeMax then return { l with cnt := wrapSub cnt 1 }
  else
    loopN w l.i
    return { l with cnt, anonSlice := if typ = .anon then l.anonSlice - 1 else l.anonSlice }

def transRandAllocLeave : M γ PUnit := modify fun s => { s with inTransition := false }

/-- The whole call, observed for at most `passes` passes of its loop. -/
def transRandAlloc (passes : Nat) : M γ Int := do
  let l ← transRandAllocEnter w
  let _ ← repeatWhile .spinning (fun l => l.cnt ≠ 0) (transRandAllocPass w) passes l
  transRandAllocLeave
  return 0

end Gobbler
