import SnippetRunner.Number.Power

/-
  Digits, and decimal numerals of 64 bits.
-/
namespace SnippetRunner.Text

def digitValue (c : Char) : Nat := c.toNat - '0'.toNat

/-- The number that a text of ASCII digits stands for. -/
def digitsValue (s : List Char) : Nat := s.foldl (fun n c => n * 10 + digitValue c) 0

/-- The value of a hexadecimal digit. -/
def hexValue? (c : Char) : Option Nat :=
  if c.isDigit then some (digitValue c)
  else if 'a' ≤ c && c ≤ 'f' then some (c.toNat - 'a'.toNat + 10)
  else if 'A' ≤ c && c ≤ 'F' then some (c.toNat - 'A'.toNat + 10)
  else none

/-- The number that a text of hexadecimal digits stands for. -/
def hexNumber? (s : List Char) : Option Nat :=
  s.foldlM (fun n c => (hexValue? c).map (n * 16 + ·)) 0

/-- The ASCII digits at the head of `s`, and the rest. -/
def spanDigits (s : List Char) : List Char × List Char :=
  (s.takeWhile Char.isDigit, s.dropWhile Char.isDigit)

/-- The value of a text of ASCII digits, if it is one and fits into 64 bits. -/
def unsigned? (s : List Char) : Option Nat :=
  if !s.isEmpty && s.all Char.isDigit && digitsValue s < twoPow 64 then some (digitsValue s)
  else none

/-- Takes a sign off the head of a numeral, and tells whether it is a minus sign. -/
def splitSign : List Char → Bool × List Char
  | '-' :: rest => (true, rest)
  | '+' :: rest => (false, rest)
  | s => (false, s)

/-- The value of a numeral that may have a plus sign. -/
def count? : List Char → Option Nat
  | '+' :: rest => unsigned? rest
  | s => unsigned? s

/-- Whether a whole number fits into 64 bits with a sign. -/
def fitsSigned (n : Int) : Bool := -(twoPow 63 : Int) ≤ n && n < twoPow 63

/-- The value of a numeral that may have a sign. -/
def integer? (s : List Char) : Option Int := do
  let (negative, digits) := splitSign s
  let magnitude ← unsigned? digits
  let n : Int := if negative then -(magnitude : Int) else magnitude
  if fitsSigned n then some n else none

end SnippetRunner.Text
