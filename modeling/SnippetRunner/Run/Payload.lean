import SnippetRunner.Heap.AudioProperties
import SnippetRunner.Script.Encode

/-
  What an outside runtime is given to run.
-/
namespace SnippetRunner

open SnippetRunner.Script

structure Payload where
  script : List Char
  prepared : Prepared
  workingDirectory : String
  /-- In milliseconds. -/
  timeout : Nat
  deriving DecidableEq, Repr

namespace Payload

def encodeTexts (texts : List String) : Json := .array (texts.map .string)

/-- The property lists of the audio types, in the order of their names. -/
def audioTypes : Json :=
  .object ((AudioProperties.table.mergeSort fun a b => a.1 ≤ b.1).map fun (name, properties) =>
    (name, encodeTexts properties))

def encode (p : Payload) : Json :=
  .object [("script", encodeText p.script), ("normalizedScript", encodeText p.prepared.normalized),
    ("instrumentedScript", encodeText p.prepared.instrumented),
    ("resultLine", Json.optional .nat p.prepared.resultLine),
    ("expressionLineMap", encodeCaptures p.prepared.captures),
    ("workingDirectory", .string p.workingDirectory), ("timeoutMs", .nat p.timeout),
    ("asyncWrapper", .bool (needsAsync p.prepared.instrumented)),
    ("audioTypes", audioTypes),
    ("audioNodeProperties", encodeTexts AudioProperties.generic)]

end Payload

/-- A path below a directory. -/
def joinPath (directory name : String) : String :=
  if directory.isEmpty || directory.endsWith "/" then directory ++ name
  else directory ++ "/" ++ name

/-- Where a runtime looks for modules: below the working directory, and then in the places that
are inherited. A colon separates places, so a directory with one in its name stands alone. -/
def modulePath (workingDirectory : String) (inherited : Option String) : String :=
  let own := joinPath workingDirectory "node_modules"
  match inherited with
  | none => own
  | some places => if own.toList.contains ':' then own else own ++ ":" ++ places

end SnippetRunner
