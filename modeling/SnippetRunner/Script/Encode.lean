import SnippetRunner.Json
import SnippetRunner.Script.Transform

/-
  Prepared scripts as JSON, for a program that runs them itself.
-/
namespace SnippetRunner.Script

def encodeText (s : List Char) : Json := .string (String.ofList s)

/-- The expressions that a script captures, by line number. -/
def encodeCaptures (captures : List (Nat × List Char)) : Json :=
  .object (captures.map fun (line, expression) => (Nat.repr line, encodeText expression))

/-- The prepared script, with what is needed to attribute results to its lines. -/
def Prepared.encode (p : Prepared) : Json :=
  .object [("instrumentedScript", encodeText p.instrumented),
    ("resultLine", Json.optional .nat p.resultLine),
    ("expressionLineMap", encodeCaptures p.captures)]

end SnippetRunner.Script
