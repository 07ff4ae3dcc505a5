import SnippetRunner.Error
import SnippetRunner.Log

/-
  How a run ends, and what is told to the caller about it.
-/
namespace SnippetRunner

/-- The value of a script, and the line of the statement that gave it. -/
structure Completion where
  value : Snapshot
  resultLine : Option Nat
  deriving Repr

/-- The logs of a run and its end. Logs are kept when the run fails. -/
structure RunOutput where
  logs : List LogEntry
  outcome : Except ExecutionError Completion

namespace RunOutput

def completed (value : Snapshot) (resultLine : Option Nat) (logs : List LogEntry) : RunOutput :=
  ⟨logs, .ok ⟨value, resultLine⟩⟩

def failed (error : ExecutionError) (logs : List LogEntry) : RunOutput := ⟨logs, .error error⟩

/-- Whether another runtime should be tried. -/
def isRetryable (output : RunOutput) : Bool :=
  match output.outcome with
  | .error error => error.isRetryable
  | .ok _ => false

end RunOutput

structure ExecutionResult where
  success : Bool
  value : Option Snapshot
  error : Option String
  errorLine : Option Nat
  logs : List LogEntry
  resultLine : Option Nat
  deriving Repr

namespace ExecutionResult

def completed (completion : Completion) (logs : List LogEntry) : ExecutionResult where
  success := true
  value := some completion.value
  error := none
  errorLine := none
  logs := logs
  resultLine := completion.resultLine

def failed (error : ExecutionError) (logs : List LogEntry) : ExecutionResult where
  success := false
  value := none
  error := some error.text
  errorLine := error.line
  logs := logs
  resultLine := none

def cancelled : ExecutionResult := failed .cancelled []

/-- The result of a finished run; a cancelled one keeps no logs. -/
def ofOutput (output : RunOutput) : ExecutionResult :=
  match output.outcome with
  | .ok completion => completed completion output.logs
  | .error error => if error.isCancelled then cancelled else failed error output.logs

def encode (r : ExecutionResult) : Json :=
  .object [("success", .bool r.success), ("value", Json.optional Snapshot.encode r.value),
    ("error", Json.optional .string r.error), ("errorLine", Json.optional .nat r.errorLine),
    ("logs", .array (r.logs.map LogEntry.encode)), ("resultLine", Json.optional .nat r.resultLine)]

end ExecutionResult

end SnippetRunner
