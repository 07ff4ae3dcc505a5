import SnippetRunner.Snapshot.Codec

/-
  Log entries: calls of the console, and the values of captured expressions.
-/
namespace SnippetRunner

inductive LogKind where
  | log
  | info
  | warn
  | error
  | result
  deriving DecidableEq, Repr

inductive LogLevel where
  | info
  | warn
  | error
  deriving DecidableEq, Repr

def LogLevel.name : LogLevel → String
  | info => "info"
  | warn => "warn"
  | error => "error"

def LogLevel.ofName? (name : String) : Option LogLevel :=
  [LogLevel.info, .warn, .error].find? (·.name = name)

namespace LogKind

def name : LogKind → String
  | log => "log"
  | info => "info"
  | warn => "warn"
  | error => "error"
  | result => "result"

def ofName? (name : String) : Option LogKind :=
  [log, info, warn, error, result].find? (·.name = name)

/-- The kind of entry that a console method makes. -/
def ofMethod (method : String) : LogKind :=
  if method = "info" then info
  else if method = "warn" then warn
  else if method = "error" then error
  else log

def level : LogKind → LogLevel
  | warn => .warn
  | error => .error
  | log | info | result => .info

end LogKind

structure LogEntry where
  kind : LogKind
  level : LogLevel
  message : Snapshot
  line : Option Nat
  deriving Repr

namespace LogEntry

def ofKind (kind : LogKind) (message : Snapshot) (line : Option Nat) : LogEntry :=
  ⟨kind, kind.level, message, line⟩

/-- The entry for a captured value. -/
def captured (message : Snapshot) (line : Option Nat) : LogEntry := ofKind .result message line

def encode (e : LogEntry) : Json :=
  .object [("type", .string e.kind.name), ("level", .string e.level.name),
    ("message", e.message.encode), ("line", Json.optional .nat e.line)]

end LogEntry

end SnippetRunner
