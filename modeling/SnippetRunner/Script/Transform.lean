import SnippetRunner.Script.Normalize
import SnippetRunner.Script.Return
import SnippetRunner.Source.Occurrence

/-
  Preparing a script to run, and the functions that it is run in.
-/
namespace SnippetRunner.Script

open SnippetRunner.Source

/-- A script made ready to run: with its module declarations replaced, and then with its
expressions reported and its value returned. -/
structure Prepared where
  normalized : List Char
  instrumented : List Char
  resultLine : Option Nat
  captures : List (Nat × List Char)
  deriving DecidableEq, Repr

def prepare (script : List Char) : Prepared :=
  let normalized := normalize script
  let captured := instrument normalized
  let returning := returnLast captured.text
  ⟨normalized, returning.text, returning.line, captured.captures⟩

/-- Whether the code of a script contains `await`. -/
def needsAsync (script : List Char) : Bool :=
  occursInCode (fun before text => (afterWord? "await".toList before text).isSome) script

/-- The lines that stand before the script in a wrapped text. -/
def wrapperLines : Nat := 1

/-- A function with `script` as its body, on lines of its own. -/
def wrapBody (keyword script : List Char) : List Char :=
  "(".toList ++ keyword ++ " () \x7b\n".toList ++ script ++ "\n\x7d)".toList

def wrapInvocation (script : List Char) (isAsync : Bool) : List Char :=
  wrapBody (if isAsync then "async function".toList else "function".toList) script ++ "()".toList

/-- Compiles the script without running it. -/
def wrapForCheck (script : List Char) : List Char := wrapBody "async function".toList script

end SnippetRunner.Script
