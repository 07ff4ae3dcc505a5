import SnippetRunner.Text.Split

/-
  Positions in a script, and the display that points at one.
-/
namespace SnippetRunner

open SnippetRunner.Text

/-- A line and a column, both counted from one; columns count characters. -/
structure Position where
  line : Nat
  column : Nat
  deriving DecidableEq, Repr

namespace Position

/-- The lines of a script, without the carriage returns at their ends. -/
def sourceLines (source : List Char) : List (List Char) :=
  (splitBetween (· = '\n') source).map fun line =>
    (line.reverse.dropWhile (· = '\r')).reverse

def lineText (source : List Char) (line : Nat) : List Char :=
  ((sourceLines source)[line - 1]?).getD []

/-- `n` moved into the range from `low` to `high`. -/
def clampNat (low high n : Nat) : Nat := max low (min high n)

/-- Moves a position into `source`: to the last line, and to just after the end of a line. -/
def clamp (source : List Char) (p : Position) : Position :=
  let line := clampNat 1 (sourceLines source).length p.line
  ⟨line, clampNat 1 ((lineText source line).length + 1) p.column⟩

/-- What stands before the caret: blanks, with the tabs of the line above. -/
def padding (text : List Char) (column : Nat) : List Char :=
  (text.take (column - 1)).map fun c => if c = '\t' then '\t' else ' '

/-- Shows the line of a position and a caret under its column, below `heading`. -/
def caretDisplay (source heading : List Char) (p : Position) : List Char :=
  let text := lineText source p.line
  let gutter := (Nat.repr p.line).toList
  heading ++ " (".toList ++ gutter ++ ":".toList ++ (Nat.repr p.column).toList ++ ")\n ".toList
    ++ gutter ++ " | ".toList ++ text ++ "\n ".toList ++ List.replicate gutter.length ' '
    ++ " | ".toList ++ padding text p.column ++ "^".toList

end Position

end SnippetRunner
