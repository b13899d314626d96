import Gobbler.Model.Random

namespace Gobbler

open Effect

variable {γ : Type} (w : World γ)

/-- One byte written, with the phase that is current. -/
def store (a : Nat) (v : UInt8) : M γ PUnit :=
  modify fun s => { s with
    mem := Function.update s.mem a v
    writes := (s.curr, a) :: s.writes }

def touchSimple (addr : Nat) : M γ PUnit := do
  let s ← get
  if s.mem addr ≠ 0xf then store addr 0xf else store addr 0x00

def fixExists (head : List FixNode) (addr : Nat) : Option FixNode :=
  head.find? fun node => node.addr = addr

/-- `malloc` was asked for the tracker, and once for each node of the list. -/
def fixAllocNode (addr : Nat) : M γ Bool := do
  let s ← get
  if w.malloc (s.fixHead.length + 1) then
    set { s with fixHead := ⟨addr, 0⟩ :: s.fixHead }
    return true
  else return false

/-- The node is the one just put at the head of the list. -/
def fixRandLoc (addr len : Nat) : M γ PUnit := do
  let loc ← randIntr w 0 (wrapSub len 10)
  let loc := if len < loc then wrapSub len 100 else loc
  modify fun s => { s with fixHead := ⟨addr, loc⟩ :: s.fixHead.tail }
  store (addr + loc) 0x00

def patternFix (addr len : Nat) : M γ PUnit := do
  if addr = 0 ∨ len = 0 then return
  let s ← get
  match fixExists s.fixHead addr with
  | some node => touchSimple (node.addr + node.loc)
  | none =>
    if ← fixAllocNode w addr then fixRandLoc w addr len
    else throw (.exit "Failure to alloc fix's node:")

def strideCut : Nat := 1000
def maxDist : Nat := 1000
def minCnt : Nat := 2
def maxCnt : Nat := 5
def maxAtt : Nat := 50

/-- The `do … while(!stride)` of `stride_get_offset`. Ten halvings bring
`STRIDE_CUT` to zero, where the division is undefined. -/
def strideLoop (len : Nat) : Nat → Nat → M γ Nat
  | 0, _ => throw .spinning
  | n + 1, piece => do
    defined (piece ≠ 0) .divisionByZero
    if len / piece = 0 then strideLoop len n (piece / 2) else return len / piece

def strideGetOffset (len : Nat) : M γ Nat := do
  note (.strideGetOffset len)
  strideLoop len 11 strideCut

/-- The `while(i < len)` of `pattern_stride`; its index wraps. -/
def patternStrideLoop (addr len stride : Nat) : Nat → Nat → M γ PUnit
  | 0, _ => throw .spinning
  | n + 1, i => do
    if i < len then
      touchSimple (addr + i)
      patternStrideLoop addr len stride n (wrap (i + stride))
    else return

def patternStride (addr len : Nat) : M γ PUnit := do
  let stride ← strideGetOffset len
  patternStrideLoop addr len stride (len + 1) 0

def patternSeq (addr len : Nat) : M γ PUnit :=
  upTo (fun i => touchSimple (addr + i)) len

def repeatGetDistance (len : Nat) : M γ Nat := strideGetOffset len

/-- The conversion of a double to `int` drops the fraction. -/
def truncInt (x : ℚ) : Int := if 0 ≤ x then ⌊x⌋ else ⌈x⌉

def ceilingPos (x : ℚ) : Int := if x - truncInt x > 0 then truncInt (x + 1) else truncInt x
def ceilingNeg (x : ℚ) : Int := if x - truncInt x < 0 then truncInt (x - 1) else truncInt x
def ceil (x : ℚ) : Int := if x > 0 then ceilingPos x else ceilingNeg x

def repeatGetCount (dist : Nat) : Nat :=
  if dist = 0 then 0
  else if maxDist ≤ dist then minCnt
  else
    let perDec : ℚ := (maxDist - dist : Nat)
    let perDec := perDec / maxDist
    (ceil (maxCnt * perDec)).toNat

def patternRepeat (addr len : Nat) : M γ PUnit := do
  let dist ← repeatGetDistance len
  times (upTo (fun i => touchSimple (addr + i)) dist) (repeatGetCount dist)

def randomTouchPage (addr len : Nat) : M γ PUnit := do
  let s ← get
  let j := if s.inTransition then 2 else maxAtt
  times (do
    let index ← randLim w (toLong (wrapSub len 20))
    patternSeq (addr + ofLong index) 10) j

/-- The `while(i < pages)` of `random_touch`, `n` windows before its end. -/
def randomTouchLoop (addr first last pages : Nat) : Nat → Nat → M γ PUnit
  | 0, _ => return
  | n + 1, i => do
    let loop := if 1 < pages then wrap (w.pageSize * i) else 0
    let startIndex := wrap (first + loop)
    let endIndex := if 1 < pages then wrap (w.pageSize + startIndex) else wrapSub last 1000
    let touchLen := wrapSub endIndex startIndex
    if last ≤ endIndex then return
    else
      randomTouchPage w (addr + startIndex) touchLen
      randomTouchLoop addr first last pages n (i + 1)

def randomTouch (addr first last : Nat) : M γ PUnit := do
  let intrLen := wrapSub last first
  let pages := intrLen / w.pageSize
  if intrLen = 0 then throw (.exit "Interval len is zero\n")
  else
    let pages := if pages = 0 then 1 else pages
    randomTouchLoop w addr first last pages pages 0

/-- The `while(n)` of `random_touch_n`, which alternates between the halves. -/
def randomTouchNLoop (addr len switcher : Nat) : Nat → Bool → M γ PUnit
  | 0, _ => return
  | n + 1, whichSlice => do
    let first := if whichSlice then switcher else 0
    let last := if whichSlice then len else switcher
    randomTouch w addr first last
    randomTouchNLoop addr len switcher n (!whichSlice)

def randomTouchN (addr len : Nat) : M γ PUnit := do
  let s ← get
  let n := if s.inTransition then 2 else 10
  randomTouchNLoop w addr len (len / 2) n false

def patternRand (addr len : Nat) : M γ PUnit := randomTouchN w addr len

/-- The array `pattern` of the access patterns. -/
def pattern : Nat → Nat → Nat → M γ PUnit
  | 0 => patternFix w
  | 1 => patternStride
  | 2 => patternSeq
  | 3 => patternRepeat
  | 4 => patternRand w
  | _ => fun _ _ => throw (.undefined .patternIndex)

end Gobbler
