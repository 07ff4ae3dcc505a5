import SnippetRunner.Error.ErrorLine
import SnippetRunner.Error.Position
import SnippetRunner.Text.Lower

/-
  The ways in which running a script fails, and their texts.
-/
namespace SnippetRunner

open SnippetRunner.Text

inductive ExecutionError where
  /-- The script cannot be parsed. -/
  | malformed (message : String) (position : Position) (display : String)
  /-- An exception was not caught. -/
  | runtime (message : String) (line : Option Nat)
  | timeout (milliseconds : Nat)
  | cancelled
  | backendUnavailable (reason : String)
  | staging (reason : String)
  | protocol (text : String)
  deriving DecidableEq, Repr

namespace ExecutionError

/-- A parse error in `source`, shown with the line that it is on. -/
def syntaxError (source : List Char) (message : String) (position : Position) : ExecutionError :=
  let position := position.clamp source
  .malformed message position (display source message position)
where
  display (source : List Char) (message : String) (position : Position) : String :=
    String.ofList (position.caretDisplay source (heading message.toList))
  heading (message : List Char) : List Char :=
    if (ErrorLine.find? message).isSome then message else "SyntaxError: ".toList ++ message

/-- The text of an error. -/
def text : ExecutionError → String
  | malformed _ _ display => display
  | runtime message _ => message
  | timeout milliseconds => "Execution timed out after " ++ Nat.repr milliseconds ++ "ms"
  | cancelled => "Execution cancelled"
  | backendUnavailable reason => "No JavaScript runtime available: " ++ reason
  | staging reason => "Failed to stage execution: " ++ reason
  | protocol text => "Malformed runner output: " ++ text

/-- The line of the script that an error is about, where one is known. -/
def line : ExecutionError → Option Nat
  | malformed _ position _ => some position.line
  | runtime _ line => line
  | _ => none

def isCancelled : ExecutionError → Bool
  | cancelled => true
  | _ => false

/-- Beginnings of complaints that another parser may not have. -/
def retryablePhrases : List (List Char) :=
  ["unexpected token", "missing ) after argument list"].map String.toList

/-- Whether another runtime may accept a script that failed so. -/
def isRetryable : ExecutionError → Bool
  | malformed message _ _ =>
    let lowered := message.toList.flatMap asciiLower
    retryablePhrases.any (occursIn · lowered)
  | _ => false

end ExecutionError

end SnippetRunner
