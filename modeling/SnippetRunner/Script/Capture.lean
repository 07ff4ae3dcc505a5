import SnippetRunner.Source.Statement
import SnippetRunner.Script.Keyword

/-
  Capture calls. An expression statement that stands alone on its line, outside all brackets, is
  wrapped in a call that reports its value with the number of the line. Lines are instrumented
  one by one and keep their ends, so line numbers survive.
-/
namespace SnippetRunner.Script

open SnippetRunner.Text SnippetRunner.Source

/-- The function that receives the value and the line of a captured expression. -/
def captureFunction : List Char := "__scratchpad_capture".toList

/-- A physical line: its content, and the line feed that ends it with a carriage return before. -/
structure Line where
  content : List Cell
  terminator : List Cell
  deriving DecidableEq, Repr

namespace Line

/-- Takes the line end off a piece that runs up to a line feed or the end of the text. -/
def ofPiece (piece : List Cell) : Line :=
  match piece.reverse with
  | feed :: return? :: before =>
    if feed.char = '\n' then
      if return?.char = '\r' then ⟨before.reverse, [return?, feed]⟩
      else ⟨(return? :: before).reverse, [feed]⟩
    else ⟨piece, []⟩
  | [feed] => if feed.char = '\n' then ⟨[], [feed]⟩ else ⟨piece, []⟩
  | [] => ⟨[], []⟩

def cells (line : Line) : List Cell := line.content ++ line.terminator

def text (line : Line) : List Char := line.cells.map Cell.char

theorem cells_ofPiece (piece : List Cell) : (ofPiece piece).cells = piece := by
  unfold ofPiece
  split
  · next feed ret before h =>
    have e : piece = (feed :: ret :: before).reverse := by rw [← h, List.reverse_reverse]
    split
    · split <;> simp [cells, e]
    · simp [cells]
  · next feed h =>
    have e : piece = [feed] := by rw [← List.reverse_reverse piece, h]; rfl
    split <;> simp [cells, e]
  · next h =>
    have e : piece = [] := by simpa using h
    simp [cells, e]

end Line

/-- The physical lines of a script. -/
def lines (cs : List Cell) : List Line := (splitAfter (·.char = '\n') cs).map Line.ofPiece

theorem flatMap_cells_ofPiece (pieces : List (List Cell)) :
    (pieces.map Line.ofPiece).flatMap Line.cells = pieces.flatten := by
  induction pieces with
  | nil => rfl
  | cons piece pieces ih => simp [Line.cells_ofPiece, ih]

theorem flatMap_cells_lines (cs : List Cell) : (lines cs).flatMap Line.cells = cs := by
  rw [lines, flatMap_cells_ofPiece, flatten_splitAfter]

/-- `s` without what follows the last element that satisfies `p`. -/
def upToLast {α : Type} (p : α → Bool) (s : List α) : List α :=
  (s.reverse.dropWhile (!p ·)).reverse

def dropSemicolon (s : List Char) : List Char := if s.getLast? = some ';' then s.dropLast else s

/-- Texts that are left alone wherever they stand: declarations and control statements, closing
brackets and what continues a statement, block openings, logging and capture calls. -/
def isSkippedForm (content : List Char) : Bool :=
  opensWithKeyword content
    || content.all (fun c => isClosing c || c = ';' || c = ',')
    || content.head?.any (fun c => isClosing c || c = '?' || c = ':' || c = '.')
    || content.getLast? = some '{'
    || (dropStart? "console.".toList content).isSome
    || (dropStart? captureFunction content).isSome

namespace Line

/-- No bracket is open where the line begins or ends. -/
def isTopLevel (line : Line) : Bool :=
  line.cells.head?.all (·.depth = 0) && line.cells.getLast?.all (·.depthAfter = 0)

def indent (line : Line) : List Cell := line.content.takeWhile (isAsciiBlank ·.char)

/-- The line from its first character that is not blank to its last significant one. -/
def statement (line : Line) : List Cell :=
  upToLast Cell.isSignificant (line.content.dropWhile (isAsciiBlank ·.char))

/-- The statement begins on this line, with a character that is no comment. -/
def beginsStatement (line : Line) : Bool :=
  line.statement.head?.any fun c => !c.isComment && c.fresh

/-- No boundary stands before the last character of the statement. -/
def isSingle (line : Line) : Bool := !line.statement.dropLast.any Cell.boundary

/-- The statement ends on this line: with a semicolon, with the script, or because what follows
does not continue it. -/
def endsStatement (line : Line) (following : List Line) : Bool :=
  (line.statement.getLast?.map Cell.char) = some ';' || line.terminator.isEmpty
    || !continuesIn ((following.flatMap Line.cells).map Cell.glyph)

/-- The text of the line's expression, if it holds a capturable one. `fromCode` tells that the
line end before it is code. -/
def expression? (fromCode : Bool) (line : Line) (following : List Line) : Option (List Char) :=
  let content := line.statement.map Cell.char
  let expression := trimEnd (dropSemicolon content)
  if line.isTopLevel && fromCode && line.terminator.head?.all Cell.isCode
      && line.beginsStatement && !isSkippedForm content && line.isSingle
      && line.endsStatement following && !expression.isEmpty then
    some expression
  else none

end Line

/-- The call that reports `expression` from line `number`. -/
def captureCall (expression : List Char) (number : Nat) : List Char :=
  captureFunction ++ "(".toList ++ expression ++ ", ".toList ++ (Nat.repr number).toList
    ++ ");".toList

/-- A line of the instrumented script, and the expression captured on it. -/
structure InstrumentedLine where
  text : List Char
  captured : Option (Nat × List Char)
  deriving DecidableEq, Repr

def instrumentLine (number : Nat) (fromCode : Bool) (line : Line) (following : List Line) :
    InstrumentedLine :=
  match line.expression? fromCode following with
  | some expression =>
    ⟨line.indent.map Cell.char ++ captureCall expression number ++ line.terminator.map Cell.char,
      some (number, expression)⟩
  | none => ⟨line.text, none⟩

/-- Instruments lines from `number` on. -/
def instrumentFrom (number : Nat) (fromCode : Bool) : List Line → List InstrumentedLine
  | [] => []
  | line :: following =>
    instrumentLine number fromCode line following
      :: instrumentFrom (number + 1) (line.cells.getLast?.all Cell.isCode) following

/-- The instrumented script with the expressions it captures, by ascending line number. -/
structure Instrumented where
  text : List Char
  captures : List (Nat × List Char)
  deriving DecidableEq, Repr

def instrument (source : List Char) : Instrumented :=
  let instrumented := instrumentFrom 1 true (lines (cells source))
  ⟨instrumented.flatMap InstrumentedLine.text, instrumented.filterMap InstrumentedLine.captured⟩

end SnippetRunner.Script
