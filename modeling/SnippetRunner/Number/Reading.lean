import SnippetRunner.Number.Double
import SnippetRunner.Text.Numeral

/-
  Reading doubles from decimal text. Digits may be missing on one side of the point, and the
  names of infinity and NaN are read in any case.
-/
namespace SnippetRunner.Double

open SnippetRunner.Text

/-- The digits after a point at the head of `s`, and the rest. -/
def spanFraction : List Char → List Char × List Char
  | '.' :: s => spanDigits s
  | s => ([], s)

/-- The exponent that is all of `s`; no text stands for no exponent. -/
def exponent? : List Char → Option Int
  | [] => some 0
  | e :: s =>
    let (negative, digits) := splitSign s
    if (e = 'e' || e = 'E') && !digits.isEmpty && digits.all Char.isDigit then
      let n : Int := digitsValue digits
      some (if negative then -n else n)
    else none

def infinityNames : List String := ["inf", "infinity"]

/-- Reads a whole text, and rounds it correctly. -/
def ofText? (s : List Char) : Option Double :=
  let (negative, body) := splitSign s
  let name := String.ofList (body.map Char.toLower)
  if name = "nan" then some nan
  else if infinityNames.contains name then some (infinite negative)
  else
    let (whole, rest) := spanDigits body
    let (fraction, rest) := spanFraction rest
    if whole.isEmpty && fraction.isEmpty then none
    else (exponent? rest).map fun e =>
      ofDecimal negative (digitsValue (whole ++ fraction)) (e - fraction.length)

/-- The whole number nearest to the magnitude of a finite double, a half upwards. -/
def roundedMagnitude (d : Double) : Nat :=
  let (num, den) := d.ratio
  (2 * num + den) / (2 * den)

/-- The nearest whole number from zero to `max`; NaN counts as zero. -/
def toNatWithin (max : Nat) (d : Double) : Nat :=
  match d with
  | nan => 0
  | infinite negative => if negative then 0 else max
  | finite negative .. => if negative then 0 else min max d.roundedMagnitude

end SnippetRunner.Double
