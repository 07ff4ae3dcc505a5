import SnippetRunner.Script.Capture

/-
  The value of a script. The last statement, if it is an expression, becomes a return statement;
  comments after it are dropped, line ends are kept.
-/
namespace SnippetRunner.Script

open SnippetRunner.Text SnippetRunner.Source

/-- A script cut around its last statement: what stands before the statement's first significant
character, the statement from there to its end, and the rest, in which nothing is significant. -/
structure LastStatement where
  before : List Cell
  statement : List Cell
  after : List Cell
  deriving DecidableEq, Repr

/-- The last of the statements, given from the last one back, that has a significant character. -/
def lastStatementIn : List (List Cell) → List Cell → Option LastStatement
  | [], _ => none
  | piece :: earlier, after =>
    if piece.any Cell.isSignificant then
      some ⟨earlier.reverse.flatten ++ piece.takeWhile (!·.isSignificant),
        piece.dropWhile (!·.isSignificant), after⟩
    else lastStatementIn earlier (piece ++ after)

def lastStatement? (cs : List Cell) : Option LastStatement :=
  lastStatementIn (splitAfter Cell.boundary cs).reverse []

/-- Statements that are no expression, by their beginning. -/
def isStatementForm (statement : List Char) : Bool :=
  opensWithKeyword statement
    || statement.head?.any (fun c => isClosing c || c = '{')
    || (dropStart? "async function".toList statement).isSome

namespace LastStatement

/-- The statement up to its last significant character, without a final semicolon and blanks. -/
def expression (s : LastStatement) : List Char :=
  trimEnd (dropSemicolon ((upToLast Cell.isSignificant s.statement).map Cell.char))

/-- The line ends that follow the expression in the statement. -/
def tail (s : LastStatement) : List Char :=
  ((s.statement.map Cell.char).drop s.expression.length).filter (· = '\n')

def isReturnable (s : LastStatement) : Bool :=
  !isStatementForm (s.statement.map Cell.char) && !s.expression.isEmpty

def returned (s : LastStatement) : List Char :=
  s.before.map Cell.char ++ "return ".toList ++ s.expression ++ ";".toList ++ s.tail
    ++ s.after.map Cell.char

/-- The number of the line on which the statement begins. -/
def line (s : LastStatement) : Nat := newlines (s.before.map Cell.char) + 1

end LastStatement

/-- A script whose last statement may have become a return statement, and the line of it. -/
structure Returning where
  text : List Char
  line : Option Nat
  deriving DecidableEq, Repr

def returnLast (source : List Char) : Returning :=
  match lastStatement? (cells source) with
  | some s => if s.isReturnable then ⟨s.returned, some s.line⟩ else ⟨source, none⟩
  | none => ⟨source, none⟩

end SnippetRunner.Script
