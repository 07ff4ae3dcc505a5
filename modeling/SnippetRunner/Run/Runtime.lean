import SnippetRunner.Error.Diagnostic
import SnippetRunner.Run.Environment
import SnippetRunner.Run.Payload
import SnippetRunner.Run.Reply

/-
  Outside runtimes. A runtime is a program that is started with a payload and writes lines; the
  first line of its output that is a reply tells how the run ended.
-/
namespace SnippetRunner

open SnippetRunner.Script

/-- All that a started runtime writes. One that hangs does not end by itself. -/
structure RuntimeOutput where
  stdout : List Char
  stderr : List Char
  hangs : Bool
  deriving DecidableEq, Repr

/-- A runtime, which answers a payload or cannot be started for the reason given. -/
structure Runtime where
  path : String
  start : Payload → Except String RuntimeOutput

namespace RuntimeOutput

def reply? (o : RuntimeOutput) : Option Reply :=
  (ExecutionError.textLines o.stdout).findSome? Reply.ofLine?

/-- What a runtime without a reply leaves behind: errors first. -/
def diagnostic (o : RuntimeOutput) : List Char :=
  let lines := ExecutionError.textLines o.stderr ++ ExecutionError.textLines o.stdout
  (lines.intersperse ['\n']).flatten

/-- The end of a run, if it comes to an end. Positions are in the normalized script. -/
def toRunOutput? (o : RuntimeOutput) (payload : Payload) : Option RunOutput :=
  let source := payload.prepared.normalized
  match o.reply? with
  | some reply => some (reply.toOutput source payload.timeout)
  | none =>
    if o.hangs then none
    else some (.failed (.ofDiagnostic o.diagnostic source wrapperLines) [])

end RuntimeOutput

/-- Runs a payload in a runtime. -/
def Runtime.run? (runtime : Runtime) (payload : Payload) : Option RunOutput :=
  match runtime.start payload with
  | .ok output => output.toRunOutput? payload
  | .error reason =>
    some (.failed (.backendUnavailable ("failed to start " ++ runtime.path ++ ": " ++ reason)) [])

/-- What a run without a runtime fails with. -/
def noRuntime : ExecutionError :=
  .backendUnavailable ("install Node.js or set " ++ Environment.runtimePathName)

end SnippetRunner
