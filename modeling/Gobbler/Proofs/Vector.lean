import Gobbler.Proofs.Moves

namespace Gobbler.Proofs

/-- A line of a vector: the count of pages or the index it starts with, which a
`long` holds, its execution time, which a `double` holds, and whether a blank
stands before the time. -/
structure VectorLine where
  first : Nat
  wcet : Nat
  blank : Bool
  first_lt : first < 2 ^ 63
  wcet_lt : wcet < 2 ^ 53

def delimiter (isIpfvt : Bool) : Char := if isIpfvt then '\t' else ','

/-- A comma may be followed by a blank. -/
def VectorLine.gap (isIpfvt : Bool) (p : VectorLine) : List Char :=
  if isIpfvt = false ∧ p.blank = true then [' '] else []

/-- A line as it is written, without its newline. -/
def VectorLine.text (isIpfvt : Bool) (p : VectorLine) : List Char :=
  Nat.toDigits 10 p.first ++ delimiter isIpfvt :: (p.gap isIpfvt ++ Nat.toDigits 10 p.wcet)

/-- A vector, one pair a line. -/
def vectorText (isIpfvt : Bool) : List VectorLine → List Char
  | [] => []
  | p :: ps => p.text isIpfvt ++ '\n' :: vectorText isIpfvt ps

/-- The count of pages of a line: a trace has one page for each. -/
def VectorLine.count (isIpfvt : Bool) (p : VectorLine) : Nat := if isIpfvt then 1 else p.first

theorem mem_toDigits {n : Nat} {c : Char} (h : c ∈ Nat.toDigits 10 n) : c.isDigit = true :=
  Nat.isDigit_of_mem_toDigits (by decide) (by decide) h

theorem toDigits_cons (n : Nat) : ∃ c cs, Nat.toDigits 10 n = c :: cs ∧ c.isDigit = true := by
  obtain ⟨c, cs, h⟩ := List.exists_cons_of_ne_nil (Nat.toDigits_ne_nil (n := n) (b := 10))
  exact ⟨c, cs, h, mem_toDigits (h ▸ List.mem_cons_self)⟩

theorem digitsValue_toDigits (n : Nat) : digitsValue (Nat.toDigits 10 n) = n :=
  Nat.ofDigitChars_ten_toDigits

/-- No digit is one of the characters the readers look for. -/
theorem isDigit_ne {c d : Char} (hc : c.isDigit = true) (hd : d.isDigit = false) : c ≠ d := by
  rintro rfl
  exact absurd (hc.symm.trans hd) Bool.noConfusion

theorem isDigit_isSpace {c : Char} (hc : c.isDigit = true) : isSpace c = false := by
  simp only [Char.isDigit, Bool.and_eq_true, decide_eq_true_eq, UInt32.le_iff_toNat_le] at hc
  obtain ⟨hlow, _⟩ := hc
  have hlow' : 48 ≤ c.toNat := hlow
  have hne : c ≠ ' ' := by
    rintro rfl
    exact absurd hlow' (by decide)
  have hrange : 9 ≤ c.toNat → 13 < c.toNat := by omega
  simpa [isSpace, hne] using hrange

/-- What follows a number ends its digits. -/
def NumberEnds : List Char → Prop
  | [] => True
  | c :: _ => c.isDigit = false

theorem takeWhile_ends {rest : List Char} (h : NumberEnds rest) : rest.takeWhile Char.isDigit = [] := by
  cases rest with
  | nil => rfl
  | cons c cs => exact List.takeWhile_cons_of_neg (by simpa [NumberEnds] using h)

theorem dropWhile_ends {rest : List Char} (h : NumberEnds rest) :
    rest.dropWhile Char.isDigit = rest := by
  cases rest with
  | nil => rfl
  | cons c cs => exact List.dropWhile_cons_of_neg (by simpa [NumberEnds] using h)

theorem digits_toDigits {n : Nat} {rest : List Char} (h : NumberEnds rest) :
    digits (Nat.toDigits 10 n ++ rest) = Nat.toDigits 10 n := by
  rw [digits, List.takeWhile_append_of_pos fun _ => mem_toDigits, takeWhile_ends h, List.append_nil]

theorem afterDigits_toDigits {n : Nat} {rest : List Char} (h : NumberEnds rest) :
    afterDigits (Nat.toDigits 10 n ++ rest) = rest := by
  rw [afterDigits, List.dropWhile_append_of_pos fun _ => mem_toDigits, dropWhile_ends h]

/-- What starts with a digit has no sign. -/
theorem signed_digits {s : List Char} (h : digits s ≠ []) : signed s = (1, s) := by
  cases s with
  | nil => rfl
  | cons c cs =>
    have hc : c.isDigit = true := by
      by_contra hc
      exact h (List.takeWhile_cons_of_neg hc)
    unfold signed
    split
    · rename_i heq
      exact absurd (List.cons.inj heq).1 (isDigit_ne hc (by decide))
    · rename_i heq
      exact absurd (List.cons.inj heq).1 (isDigit_ne hc (by decide))
    · rfl

/-- A number has no sign and no blank before it. -/
theorem signed_toDigits (n : Nat) (rest : List Char) :
    signed ((Nat.toDigits 10 n ++ rest).dropWhile isSpace) = (1, Nat.toDigits 10 n ++ rest) := by
  obtain ⟨c, cs, hcons, hc⟩ := toDigits_cons n
  have hspace : ¬isSpace c = true := by
    rw [isDigit_isSpace hc]
    exact Bool.false_ne_true
  rw [hcons, List.cons_append, List.dropWhile_cons_of_neg hspace]
  apply signed_digits
  simp [digits, hc]

theorem atol_toDigits {n : Nat} (h : n < 2 ^ 63) : ofLong (atol (Nat.toDigits 10 n)) = n := by
  have hsigned := signed_toDigits n []
  rw [List.append_nil] at hsigned
  have hdigits : digits (Nat.toDigits 10 n ++ []) = Nat.toDigits 10 n := digits_toDigits trivial
  rw [List.append_nil] at hdigits
  rw [atol, hsigned]
  simp only [hdigits, digitsValue_toDigits, ofLong]
  omega

theorem atof_toDigits (n : Nat) : atof (Nat.toDigits 10 n ++ ['\n']) = n := by
  have hends : NumberEnds ['\n'] := rfl
  rw [atof, signed_toDigits]
  simp only [digits_toDigits hends, afterDigits_toDigits hends]
  simp [exponent, Nat.toDigits_ne_nil, digitsValue_toDigits]

/-- The whole number that a text starts with, up to blanks. -/
def wholeValue (s : List Char) : Nat := digitsValue (digits (s.dropWhile isSpace))

/-- The text is a plain whole number: nothing that `strtod` reads as another
notation follows its digits, and a `double` holds its value. -/
structure PlainTime (s : List Char) : Prop where
  number : digits (s.dropWhile isSpace) ≠ []
  ends : (afterDigits (s.dropWhile isSpace)).head?.all isSpace = true
  fits : wholeValue s < 2 ^ 53

theorem atof_plain {s : List Char} (h : PlainTime s) : atof s = wholeValue s := by
  obtain ⟨hnumber, hends, _⟩ := h
  unfold atof wholeValue
  rw [signed_digits hnumber]
  simp only
  generalize digits (s.dropWhile isSpace) = whole at hnumber
  generalize afterDigits (s.dropWhile isSpace) = rest at hends
  cases rest with
  | nil => simp [hnumber, exponent]
  | cons c cs =>
    have hspace : isSpace c = true := hends
    have hdot : c ≠ '.' := by
      rintro rfl
      contradiction
    have hexp : exponent (c :: cs) = 0 := by
      rw [exponent, if_neg]
      rintro (rfl | rfl) <;> contradiction
    simp [hnumber, hdot, hexp]

/-- A blank before the time is skipped. -/
theorem atof_blank (s : List Char) : atof (' ' :: s) = atof s := by
  rw [atof, List.dropWhile_cons_of_pos (by decide), atof]

theorem dropWhile_delim {delim : Char} {a : List Char} (h : ∀ d ∈ a, d ≠ delim) (rest : List Char)
    (hne : a ≠ []) : (a ++ rest).dropWhile (· = delim) = a ++ rest := by
  obtain ⟨c, cs, rfl⟩ := List.exists_cons_of_ne_nil hne
  exact List.dropWhile_cons_of_neg (by simpa using h c List.mem_cons_self)

/-- A token ends at its delimiter. -/
theorem strtok_token {delim : Char} {a rest : List Char} (hne : a ≠ [])
    (h : ∀ d ∈ a, d ≠ delim) : strtok delim (a ++ delim :: rest) = (some a, rest) := by
  have hdrop := dropWhile_delim h (delim :: rest) hne
  have hpos : ∀ d ∈ a, decide (d ≠ delim) = true := fun d hd => decide_eq_true (h d hd)
  have htake : (a ++ delim :: rest).takeWhile (· ≠ delim) = a := by
    rw [List.takeWhile_append_of_pos hpos, List.takeWhile_cons_of_neg (by simp), List.append_nil]
  have hafter : (a ++ delim :: rest).dropWhile (· ≠ delim) = delim :: rest := by
    rw [List.dropWhile_append_of_pos hpos, List.dropWhile_cons_of_neg (by simp)]
  obtain ⟨c, cs, rfl⟩ := List.exists_cons_of_ne_nil hne
  unfold strtok
  rw [hdrop]
  simp only [List.cons_append] at htake hafter ⊢
  rw [htake, hafter]
  rfl

/-- The last token ends with the line. -/
theorem strtok_last {delim : Char} {a : List Char} (hne : a ≠ [])
    (h : ∀ d ∈ a, d ≠ delim) : (strtok delim a).1 = some a := by
  have hdrop := dropWhile_delim h [] hne
  have hpos : ∀ d ∈ a, decide (d ≠ delim) = true := fun d hd => decide_eq_true (h d hd)
  rw [List.append_nil] at hdrop
  have htake : a.takeWhile (· ≠ delim) = a := List.takeWhile_eq_self_iff.mpr hpos
  obtain ⟨c, cs, rfl⟩ := List.exists_cons_of_ne_nil hne
  unfold strtok
  rw [hdrop]
  simp only [htake]

/-- A line without a zero byte is a string of C. -/
theorem cString_eq {line : List Char} (h : ∀ c ∈ line, c ≠ '\x00') : cString line = line :=
  List.takeWhile_eq_self_iff.mpr fun c hc => decide_eq_true (h c hc)

theorem getline_line {line rest : List Char} (h : ∀ c ∈ line, c ≠ '\n') :
    getline (line ++ '\n' :: rest) = some (line ++ ['\n'], rest) := by
  have hpos : ∀ c ∈ line, decide (c ≠ '\n') = true := fun c hc => decide_eq_true (h c hc)
  unfold getline
  rw [if_neg (by simp), List.takeWhile_append_of_pos hpos, List.dropWhile_append_of_pos hpos,
    List.takeWhile_cons_of_neg (by simp), List.dropWhile_cons_of_neg (by simp), List.append_nil]

theorem VectorLine.mem_gap {isIpfvt : Bool} {p : VectorLine} {c : Char}
    (h : c ∈ p.gap isIpfvt) : c = ' ' := by
  unfold VectorLine.gap at h
  split at h
  · exact List.mem_singleton.mp h
  · cases h

/-- The characters of a line: digits, its delimiter and blanks. -/
theorem VectorLine.mem_text {isIpfvt : Bool} {p : VectorLine} {c : Char}
    (h : c ∈ p.text isIpfvt) : c.isDigit = true ∨ c = delimiter isIpfvt ∨ c = ' ' := by
  rcases List.mem_append.mp h with h | h
  · exact .inl (mem_toDigits h)
  · rcases List.mem_cons.mp h with h | h
    · exact .inr (.inl h)
    · rcases List.mem_append.mp h with h | h
      · exact .inr (.inr (mem_gap h))
      · exact .inl (mem_toDigits h)

theorem VectorLine.text_ne {isIpfvt : Bool} {p : VectorLine} {d : Char} (hd : d.isDigit = false)
    (hdelim : delimiter isIpfvt ≠ d) (hblank : ' ' ≠ d) : ∀ c ∈ p.text isIpfvt, c ≠ d := by
  intro c hc
  rcases mem_text hc with h | rfl | rfl
  · exact isDigit_ne h hd
  · exact hdelim
  · exact hblank

theorem atof_gap (isIpfvt : Bool) (p : VectorLine) (s : List Char) :
    atof (p.gap isIpfvt ++ s) = atof s := by
  unfold VectorLine.gap
  split
  · exact atof_blank s
  · rfl

/-- The count of pages of a line, which is 1 in a trace. -/
def allocCntOf (isIpfvt : Bool) (line : List Char) : Option Nat :=
  if isIpfvt then some 1
  else (strtok (delimiter isIpfvt) (cString line)).1.map fun t => ofLong (atol t)

/-- The token that the time of a line is read from. -/
def timeToken (isIpfvt : Bool) (line : List Char) : Option (List Char) :=
  (strtok (delimiter isIpfvt) (strtok (delimiter isIpfvt) (cString line)).2).1

/-- A line needs both tokens, also where the count is not read from the first. -/
theorem parseLine_eq (isIpfvt : Bool) (line : List Char) :
    parseLine isIpfvt line = (allocCntOf isIpfvt line).bind fun allocCnt =>
      (timeToken isIpfvt line).map fun t => (allocCnt, atof t) := by
  simp only [parseLine, allocCntOf, timeToken, delimiter]
  generalize (strtok _ (strtok _ (cString line)).2).1 = second
  generalize (if isIpfvt = true then some 1 else _) = count
  cases count <;> cases second <;> rfl

/-- What is written on a line is read from it. -/
theorem parseLine_text (isIpfvt : Bool) (p : VectorLine) :
    parseLine isIpfvt (p.text isIpfvt ++ ['\n']) = some (p.count isIpfvt, (p.wcet : ℚ)) := by
  have hdelim : delimiter isIpfvt ≠ '\x00' := by cases isIpfvt <;> decide
  have hstring : cString (p.text isIpfvt ++ ['\n']) = p.text isIpfvt ++ ['\n'] := by
    apply cString_eq
    intro c hc
    rcases List.mem_append.mp hc with hc | hc
    · exact VectorLine.text_ne (by decide) hdelim (by decide) c hc
    · rw [List.mem_singleton.mp hc]
      decide
  have hdigit : (delimiter isIpfvt).isDigit = false := by cases isIpfvt <;> decide
  have hfirst : strtok (delimiter isIpfvt) (p.text isIpfvt ++ ['\n']) =
      (some (Nat.toDigits 10 p.first), p.gap isIpfvt ++ Nat.toDigits 10 p.wcet ++ ['\n']) := by
    rw [VectorLine.text, List.append_assoc, List.cons_append]
    exact strtok_token Nat.toDigits_ne_nil fun d hd => isDigit_ne (mem_toDigits hd) hdigit
  have hsecond : (strtok (delimiter isIpfvt)
      (p.gap isIpfvt ++ Nat.toDigits 10 p.wcet ++ ['\n'])).1 =
      some (p.gap isIpfvt ++ Nat.toDigits 10 p.wcet ++ ['\n']) := by
    apply strtok_last (by simp)
    intro d hd
    rcases List.mem_append.mp hd with hd | hd
    · rcases List.mem_append.mp hd with hd | hd
      · rw [VectorLine.mem_gap hd]
        cases isIpfvt <;> decide
      · exact isDigit_ne (mem_toDigits hd) hdigit
    · rw [List.mem_singleton.mp hd]
      cases isIpfvt <;> decide
  have htime : atof (p.gap isIpfvt ++ Nat.toDigits 10 p.wcet ++ ['\n']) = p.wcet := by
    rw [List.append_assoc, atof_gap, atof_toDigits]
  rw [parseLine_eq, allocCntOf, timeToken, hstring, hfirst, hsecond]
  simp only [Option.map_some, htime]
  cases isIpfvt with
  | true => rfl
  | false => simp [VectorLine.count, atol_toDigits p.first_lt]

theorem getline_text (isIpfvt : Bool) (p : VectorLine) (ps : List VectorLine) :
    getline (vectorText isIpfvt (p :: ps)) =
      some (p.text isIpfvt ++ ['\n'], vectorText isIpfvt ps) := by
  have hdelim : delimiter isIpfvt ≠ '\n' := by cases isIpfvt <;> decide
  exact getline_line (VectorLine.text_ne (by decide) hdelim (by decide))

end Gobbler.Proofs
