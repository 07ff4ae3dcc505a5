import SnippetRunner.Error
import SnippetRunner.Error.Frame
import SnippetRunner.Text.Blank

/-
  The error behind the text that a crashed runtime left.
-/
namespace SnippetRunner.ExecutionError

open SnippetRunner.Text

/-- The lines of a text, without their ends. -/
def textLines (text : List Char) : List (List Char) :=
  (splitAfter (· = '\n') text).map fun line =>
    match line.reverse with
    | '\n' :: '\r' :: before => before.reverse
    | '\n' :: before => before.reverse
    | _ => line

def lastLines (count : Nat) (text : List Char) : List Char :=
  let lines := textLines text
  ((lines.drop (lines.length - count)).intersperse ['\n']).flatten

/-- The error that a text without a reported error stands for. -/
def ofNoise (text : List Char) : ExecutionError :=
  let trimmed := trim text
  if trimmed.isEmpty then .protocol "runner exited without a result"
  else .protocol (String.ofList (lastLines 5 trimmed))

/-- Finds the reported error and the position in the script; a syntax error with a position is
shown in the script. -/
def ofDiagnostic (text source : List Char) (wrapperLines : Nat) : ExecutionError :=
  let position := Position.ofStack? text wrapperLines
  match ErrorLine.find? text with
  | none => ofNoise text
  | some reported =>
    let message := trim reported.message
    let text := String.ofList (reported.kind ++ ": ".toList ++ message)
    let uncaught : ExecutionError := .runtime text (position.map Position.line)
    match position with
    | some position =>
      if reported.kind = "SyntaxError".toList then
        .syntaxError source (String.ofList message) position
      else uncaught
    | none => uncaught

end SnippetRunner.ExecutionError
