/-
  The states that an execution passes through.
-/
namespace SnippetRunner

inductive ExecutionState where
  | idle
  | deciding
  | runningIsolated
  | runningFallback
  | completed
  | failed
  | cancelled
  deriving DecidableEq, Repr

namespace ExecutionState

def all : List ExecutionState :=
  [idle, deciding, runningIsolated, runningFallback, completed, failed, cancelled]

def name : ExecutionState → String
  | idle => "idle"
  | deciding => "deciding"
  | runningIsolated => "running_isolated"
  | runningFallback => "running_fallback"
  | completed => "completed"
  | failed => "failed"
  | cancelled => "cancelled"

/-- An execution does not leave these states. -/
def isTerminal : ExecutionState → Bool
  | completed | failed | cancelled => true
  | _ => false

end ExecutionState

end SnippetRunner
