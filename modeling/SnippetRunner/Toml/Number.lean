import SnippetRunner.Config.Value
import SnippetRunner.Toml.Text

/-
  Numbers of TOML text. Underscores may stand between digits.
-/
namespace SnippetRunner.Toml

open SnippetRunner.Text

/-- The digits of a text of digits, single underscores between them taken out. -/
def plainDigits? (isDigit : Char → Bool) (s : List Char) : Option (List Char) :=
  let runs := splitBetween (· = '_') s
  if runs.all fun run => !run.isEmpty && run.all isDigit then some runs.flatten else none

/-- The digits of a decimal number, which begins with a zero only if that is all of it. -/
def decimalDigits? (s : List Char) : Option (List Char) := do
  let digits ← plainDigits? Char.isDigit s
  if digits.head? = some '0' && digits ≠ ['0'] then none else some digits

/-- A number that is written in the base `base`. -/
def basedInteger? (base : Nat) (s : List Char) : Option Int := do
  let isDigit (c : Char) : Bool := (hexValue? c).any (· < base)
  let digits ← plainDigits? isDigit s
  let n := digits.foldl (fun n c => n * base + (hexValue? c).getD 0) 0
  if fitsSigned n then some n else none

def integer? : List Char → Option Int
  | '0' :: 'x' :: s => basedInteger? 16 s
  | '0' :: 'o' :: s => basedInteger? 8 s
  | '0' :: 'b' :: s => basedInteger? 2 s
  | s => do
    let (negative, digits) := splitSign s
    Text.integer? ((if negative then ['-'] else []) ++ (← decimalDigits? digits))

/-- The digits after a point, with the point. -/
def fractionText? : List Char → Option (List Char)
  | [] => some []
  | _ :: digits => (plainDigits? Char.isDigit digits).map ('.' :: ·)

/-- An exponent. -/
def exponentText? : List Char → Option (List Char)
  | [] => some []
  | _ :: s => do
    let (negative, digits) := splitSign s
    return 'e' :: (if negative then ['-'] else []) ++ (← plainDigits? Char.isDigit digits)

/-- A number with a fraction or an exponent, or one with a name. A number too great for a double
is none. -/
def float? (s : List Char) : Option Double := do
  let (negative, body) := splitSign s
  if body = "inf".toList then return .infinite negative
  if body = "nan".toList then return .nan
  let isPoint (c : Char) : Bool := c = '.'
  let isMark (c : Char) : Bool := c = 'e' || c = 'E'
  let mantissa := body.takeWhile (!isMark ·)
  let whole ← decimalDigits? (mantissa.takeWhile (!isPoint ·))
  let fraction ← fractionText? (mantissa.dropWhile (!isPoint ·))
  let exponent ← exponentText? (body.dropWhile (!isMark ·))
  if fraction.isEmpty && exponent.isEmpty then none
  let d ← Double.ofText? ((if negative then ['-'] else []) ++ whole ++ fraction ++ exponent)
  if d = .infinite false then none else some d

end SnippetRunner.Toml
