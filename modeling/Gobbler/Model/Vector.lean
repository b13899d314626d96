import Gobbler.Model.Types

namespace Gobbler

/-- `getline`: a line with its newline, and the rest of the stream. -/
def getline (stream : List Char) : Option (List Char × List Char) :=
  if stream = [] then none
  else
    let line := stream.takeWhile (· ≠ '\n')
    match stream.dropWhile (· ≠ '\n') with
    | [] => some (line, [])
    | c :: rest => some (line ++ [c], rest)

/-- The part of a buffer that C sees as a string. -/
def cString (line : List Char) : List Char := line.takeWhile (· ≠ '\x00')

/-- One call of `strtok`: the token and what the next call starts from. -/
def strtok (delim : Char) (s : List Char) : Option (List Char) × List Char :=
  match s.dropWhile (· = delim) with
  | [] => (none, [])
  | c :: cs =>
    (some ((c :: cs).takeWhile (· ≠ delim)), ((c :: cs).dropWhile (· ≠ delim)).drop 1)

def isSpace (c : Char) : Bool := c = ' ' || (9 ≤ c.toNat && c.toNat ≤ 13)

def digits (s : List Char) : List Char := s.takeWhile Char.isDigit
def afterDigits (s : List Char) : List Char := s.dropWhile Char.isDigit
def digitsValue (s : List Char) : Nat := s.foldl (fun n c => 10 * n + (c.toNat - 48)) 0

/-- An optional sign, as a factor, and what follows it. -/
def signed : List Char → Int × List Char
  | '-' :: s => (-1, s)
  | '+' :: s => (1, s)
  | s => (1, s)

/-- `atol`, which stays within the range of a `long`. -/
def atol (s : List Char) : Int :=
  let (sign, s) := signed (s.dropWhile isSpace)
  max (-2 ^ 63) (min (2 ^ 63 - 1) (sign * digitsValue (digits s)))

/-- The exponent part of a decimal number, zero when there is none. -/
def exponent : List Char → Int
  | c :: s =>
    if c = 'e' ∨ c = 'E' then
      let (sign, s) := signed s
      sign * digitsValue (digits s)
    else 0
  | [] => 0

/-- `atof` on decimal numbers, without rounding; the hexadecimal numbers, infinities
and NaNs that it reads too are left out. -/
def atof (s : List Char) : ℚ :=
  let (sign, s) := signed (s.dropWhile isSpace)
  let whole := digits s
  let (fraction, rest) := match afterDigits s with
    | '.' :: s => (digits s, afterDigits s)
    | s => ([], s)
  if whole ++ fraction = [] then 0
  else
    let mantissa : ℚ := digitsValue (whole ++ fraction) / 10 ^ fraction.length
    sign * mantissa * 10 ^ exponent rest

variable {γ : Type}

/-- A token that `atol` or `atof` is about to read. -/
def token : Option (List Char) → M γ (List Char)
  | some t => return t
  | none => throw (.undefined .nullToken)

/-- `get_nxt_alloc`: the count and the time of the next line, if there is one. -/
def getNxtAlloc (isIpfvt : Bool) : M γ (Option (Nat × ℚ)) := do
  let s ← get
  match getline s.vectorStream with
  | none => return none
  | some (line, rest) =>
    set { s with vectorStream := rest }
    let delim := if isIpfvt then '\t' else ','
    let (t, saved) := strtok delim (cString line)
    let allocCnt ←
      if isIpfvt then pure 1
      else do
        let t ← token t
        pure (ofLong (atol t))
    let (t, _) := strtok delim saved
    let t ← token t
    return some (allocCnt, atof t)

end Gobbler
