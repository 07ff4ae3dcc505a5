import SnippetRunner.Json.Reader
import SnippetRunner.Run.Outcome
import SnippetRunner.Text.Blank

/-
  Replies of a runtime. A reply is one line that holds one JSON object; other lines are noise.
  Fields that are not known are passed over, a known field may stand only once, and a record may
  also be written as the array of its fields in order.
-/
namespace SnippetRunner

open SnippetRunner.Json SnippetRunner.Text

structure ReportedSyntaxError where
  message : String
  position : Position
  deriving DecidableEq, Repr

structure Reply where
  success : Bool
  syntaxError : Option ReportedSyntaxError
  result : Option Snapshot
  resultLine : Option Nat
  error : Option String
  errorLine : Option Nat
  /-- The runtime stopped the script itself, for the time it took. -/
  timedOut : Bool
  output : List LogEntry
  deriving Repr

namespace Reply

/-! ## Fields -/

/-- A list of known fields, each with its value if it was given. -/
abbrev Known := List (String × Option Draft)

/-- Sorts the fields of an object into the known ones `names`; none if a key is no text or one of
the names is given twice. -/
def knownFields? (names : List String) (fields : List (Option String × Draft)) : Option Known := do
  let fields ← fields.mapM fun (key, value) => key.map fun key => (key, value)
  names.mapM fun name =>
    match fields.filter (·.1 = name) with
    | [] => some (name, none)
    | [(_, value)] => some (name, some value)
    | _ => none

/-- The fields of a record written as an object, or as an array of at most all its fields. -/
def recordFields? (names : List String) : Draft → Option Known
  | .object fields => knownFields? names fields
  | .array items =>
    if items.length ≤ names.length then
      some (names.zipIdx.map fun (name, index) => (name, items[index]?))
    else none
  | _ => none

/-- Reads a field that has to be there. -/
def required {α : Type} (known : Known) (name : String) (read : Draft → Option α) : Option α := do
  read (← (← Fields.get? known name))

/-- Reads a field that may be left out, and then has the value `absent`. -/
def optional {α : Type} (known : Known) (name : String) (absent : α) (read : Draft → Option α) :
    Option α := do
  match ← Fields.get? known name with
  | none => some absent
  | some draft => read draft

/-- Reads a value that may be null. -/
def nullable {α : Type} (read : Draft → Option α) : Draft → Option (Option α)
  | .null => some none
  | draft => (read draft).map some

def bool? : Draft → Option Bool
  | .bool b => some b
  | _ => none

def string? : Draft → Option String
  | .string s => s
  | _ => none

def count? : Draft → Option Nat
  | .number (some n) => n.toNat?
  | _ => none

def snapshot? (levels : Nat) (draft : Draft) : Option Snapshot :=
  (draft.value? levels).map Snapshot.decode

/-- Reads a name, which may also be written as the only key of an object, with the value null. -/
def name? {α : Type} (ofName? : String → Option α) : Draft → Option α
  | .string s => s.bind ofName?
  | .object [(key, .null)] => key.bind ofName?
  | _ => none

/-! ## Records -/

def syntaxError? (draft : Draft) : Option ReportedSyntaxError := do
  let known ← recordFields? ["message", "line", "column"] draft
  return ⟨← required known "message" string?,
    ⟨← required known "line" count?, ← required known "column" count?⟩⟩

/-- An entry lies two levels deep in its reply, and its message three. -/
def logEntry? (draft : Draft) : Option LogEntry := do
  let known ← recordFields? ["type", "level", "message", "line"] draft
  return ⟨← required known "type" (name? LogKind.ofName?),
    ← required known "level" (name? LogLevel.ofName?),
    ← required known "message" (snapshot? (maxLevels - 3)),
    ← optional known "line" none (nullable count?)⟩

def logEntries? : Draft → Option (List LogEntry)
  | .array items => items.mapM logEntry?
  | _ => none

def fieldNames : List String :=
  ["success", "syntaxError", "result", "resultLine", "error", "errorLine", "timedOut", "output"]

def ofDraft? (draft : Draft) : Option Reply := do
  let known ← recordFields? fieldNames draft
  return {
    success := ← required known "success" bool?
    syntaxError := ← optional known "syntaxError" none (nullable syntaxError?)
    result := ← optional known "result" none (nullable (snapshot? (maxLevels - 1)))
    resultLine := ← optional known "resultLine" none (nullable count?)
    error := ← optional known "error" none (nullable string?)
    errorLine := ← optional known "errorLine" none (nullable count?)
    timedOut := ← optional known "timedOut" false bool?
    output := ← optional known "output" [] logEntries? }

/-- Reads a line, if it is a reply. -/
def ofLine? (line : List Char) : Option Reply :=
  let trimmed := trim line
  if trimmed.head? = some '{' then (Draft.read? trimmed).bind ofDraft? else none

/-- The end of the run that a reply reports. Parse errors are positions in `source`; a value that
was null is not told from one that was left out. -/
def toOutput (reply : Reply) (source : List Char) (timeout : Nat) : RunOutput :=
  match reply.syntaxError with
  | some reported =>
    .failed (.syntaxError source reported.message reported.position) reply.output
  | none =>
    if reply.success then
      .completed (reply.result.getD .null) reply.resultLine reply.output
    else if reply.timedOut then .failed (.timeout timeout) reply.output
    else .failed (.runtime (reply.error.getD "Error: unknown failure") reply.errorLine) reply.output

end Reply

end SnippetRunner
