import Gobbler.Model.Vector

namespace Gobbler

/-- `$(( … ))` of the shell, which computes in signed 64-bit integers. -/
def arith (x : Int) : Int := Int.bmod x (2 ^ 64)

/-- A number as the shell writes it. -/
def decimal (n : Int) : List Char :=
  if n < 0 then '-' :: Nat.toDigits 10 n.natAbs else Nat.toDigits 10 n.natAbs

/-- The bytes that the operand `bs` of `dd` stands for, with its suffix. -/
def ddBytes (size : List Char) : Option Nat :=
  if digits size = [] then none
  else match afterDigits size with
    | [] => some (digitsValue (digits size))
    | ['K'] => some (digitsValue (digits size) * 1024)
    | ['M'] => some (digitsValue (digits size) * 1048576)
    | _ => none

/-- What the commands on the host do, those on the files by their number. `dd` is
given its operand `bs`; it fails, or leaves a file of so many bytes. -/
structure Host where
  mount : Bool
  dd : Nat → List Char → Option Nat
  chmod : Nat → Bool

/-- An entry of an array: its mark, and the argument of `PATH` or NULL. -/
structure PathEntry where
  alloc : Int
  path : Option (List Char)
deriving DecidableEq

/-- An entry of `file_lst`: its size, the name of its array, and `filled`. -/
structure SizeEntry where
  size : Int
  paths : List Char
  filled : Int
deriving DecidableEq

/-- What `file_gen.sh` has printed, and the files on its image with their sizes.
`dds` is the number of files so far. -/
structure Generated where
  diskSize : Int
  enumerators : List (List Char)
  arrays : List (List Char × List PathEntry)
  fileLst : List SizeEntry
  image : List Char → Option Nat
  dds : Nat

/-- Commands of the script: they go on, or it exits with a message. -/
abbrev Gen := EStateM String Generated

namespace FileGen

def megabyte : Int := 1048576
def kilobyte : Int := 1024
def multiplier : Int := 2

/-- The name of a file: `$size"_"$i.txt`. -/
def fileName (size : List Char) (i : Nat) : List Char := size ++ '_' :: decimal i ++ ".txt".toList

def fileArray (type : List Char) : List Char := "file_".toList ++ type

/-- The loop that adds up the sizes; it computes the size of the image only. -/
def diskSizeLoop (persizecount : Nat) : List (List Char) → Int → Int → Int
  | [], _, diskSize => diskSize
  | _ :: types, j, diskSize =>
    let size := arith (4 * j)
    diskSizeLoop persizecount types (arith (j * multiplier))
      (arith (diskSize + arith (size * persizecount)))

/-- `dd` and `chmod` on one file. -/
def createFile (host : Host) (size : List Char) (i : Nat) : Gen PUnit := do
  let s ← get
  let name := fileName size i
  match host.dd s.dds size with
  | none => throw ("File Creation Failure @ ./G/" ++ String.ofList name)
  | some bytes =>
    set { s with image := Function.update s.image name (some bytes), dds := s.dds + 1 }
  if host.chmod s.dds then return
  else throw ("chmod failure @ ./G/" ++ String.ofList name)

/-- The loop over `seq`, and the closing NULL. -/
def arrayEntries (host : Host) (size : List Char) : List Nat → Gen (List PathEntry)
  | [] => return [⟨0, none⟩]
  | i :: is => do
    createFile host size i
    let entries ← arrayEntries host size is
    return ⟨0, some (fileName size i)⟩ :: entries

/-- The loop that creates the files and prints the arrays. -/
def fileArrays (host : Host) (sizeGranularity : Char) (persizecount : Nat) :
    List (List Char) → Int → Gen PUnit
  | [], _ => return
  | type :: types, j => do
    let size := decimal (arith (4 * j)) ++ [sizeGranularity]
    let entries ← arrayEntries host size (List.range' 1 persizecount)
    modify fun s => { s with arrays := s.arrays ++ [(fileArray type, entries)] }
    fileArrays host sizeGranularity persizecount types (arith (j * multiplier))

/-- The loop that prints `file_lst`. -/
def sizeTable (scale : Int) : List (List Char) → Int → Gen PUnit
  | [], _ => return
  | type :: types, j => do
    let k := arith (4 * j * scale)
    modify fun s => { s with fileLst := s.fileLst ++ [⟨k, fileArray type, 0⟩] }
    sizeTable scale types (arith (j * multiplier))

/-- `scale` for the granularity that was set. -/
def scaleOf (sizeGranularity : Char) : Option Int :=
  if sizeGranularity = 'M' then some megabyte
  else if sizeGranularity = 'K' then some kilobyte
  else none

/-- The whole script, for item names that are words. -/
def fileGen (host : Host) (sizeGranularity : Char) (persizecount : Nat)
    (items : List (List Char)) : Gen PUnit := do
  match scaleOf sizeGranularity with
  | none => throw "Granularity Error"
  | some scale =>
    let listType := items.map ("Item".toList ++ ·)
    modify fun s => { s with
      diskSize := arith (diskSizeLoop persizecount listType 1 0 * multiplier) }
    if host.mount = false then throw "Mount Failure"
    modify fun s => { s with
      image := fun _ => none
      enumerators := listType ++ ["max".toList] }
    fileArrays host sizeGranularity persizecount listType 1
    sizeTable scale listType 1

/-- Before the script starts. -/
def nothing : Generated where
  diskSize := 0
  enumerators := []
  arrays := []
  fileLst := []
  image := fun _ => none
  dds := 0

end FileGen

end Gobbler
