import SnippetRunner.Engine.Blank
import SnippetRunner.Number.Decimal
import SnippetRunner.Number.Reading

/-
  Numbers as scripts of the isolated engine write and read them in text.
-/
namespace SnippetRunner.Engine

open SnippetRunner.Text

/-- An exponent below `10^-6` and from `10^21` on. -/
def numberLayout : DoubleLayout := ⟨.even, fun e => -6 ≤ e && e ≤ 20, false, true⟩

def numberText : Double → String
  | .infinite negative => if negative then "-Infinity" else "Infinity"
  | d => if d.isZero then "0" else d.format numberLayout

/-- The number that a text stands for: a decimal numeral or infinity, between blanks. -/
def numberOfText (text : String) : Double :=
  let s := trimScript text.toList
  let (negative, magnitude) := splitSign s
  if s.isEmpty then .zero false
  else if magnitude = "Infinity".toList then .infinite negative
  else if magnitude.all fun c => c.isDigit || "eE.+-".toList.contains c then
    (Double.ofText? s).getD .nan
  else .nan

end SnippetRunner.Engine
