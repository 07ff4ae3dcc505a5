import SnippetRunner.Error.Position
import SnippetRunner.Text.Numeral
import SnippetRunner.Text.Word

/-
  Frames of a stack text that name the user's script. Lines are counted in the wrapped script,
  so the lines that stand before the script are taken off again.
-/
namespace SnippetRunner

open SnippetRunner.Text

/-- The names that a script has in a stack text. -/
def scriptNames : List (List Char) := ["scratchpad.js", "eval_script"].map String.toList

/-- The digits of a line and, if given, of a column. -/
structure Frame where
  line : List Char
  column : Option (List Char)
  deriving DecidableEq, Repr

namespace Frame

/-- Reads a colon and the digits after it, at least one. -/
def colonDigits? (s : List Char) : Option (List Char × List Char) :=
  match s with
  | ':' :: rest =>
    let digits := rest.takeWhile isDigit
    if digits.isEmpty then none else some (digits, rest.dropWhile isDigit)
  | _ => none

/-- Reads a frame at the head of `s`. -/
def read? (s : List Char) : Option Frame := do
  let afterName ← scriptNames.findSome? fun name => dropStart? name s
  let (line, rest) ← colonDigits? afterName
  return ⟨line, (colonDigits? rest).map Prod.fst⟩

/-- The frames of a stack text, from the left. -/
def all : List Char → List Frame
  | [] => []
  | c :: rest => (read? (c :: rest)).toList ++ all rest

/-- The position of a frame in the script, unless its line is no number or lies in the wrapper. -/
def position? (wrapperLines : Nat) (frame : Frame) : Option Position := do
  let line ← unsigned? frame.line
  if wrapperLines < line then
    return ⟨line - wrapperLines, (frame.column.bind unsigned?).getD 1⟩
  else none

end Frame

/-- The position of the first frame of a stack text that lies in the script. -/
def Position.ofStack? (stack : List Char) (wrapperLines : Nat) : Option Position :=
  (Frame.all stack).findSome? (Frame.position? wrapperLines)

end SnippetRunner
