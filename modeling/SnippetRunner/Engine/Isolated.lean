import SnippetRunner.Engine.Reading
import SnippetRunner.Engine.Run
import SnippetRunner.Error.Frame
import SnippetRunner.Run.Outcome
import SnippetRunner.Snapshot.Render

/-
  The isolated backend. The normalized script is read first, so that a script that cannot be
  read does not run at all; then the instrumented script runs.
-/
namespace SnippetRunner.Engine

open SnippetRunner.Script

/-- The text that a property of an error shows, if it shows one. -/
def Store.shownText (s : Store) (place : Nat) (key : String) : String :=
  match s.get? place key with
  | none => ""
  | some .undefined => ""
  | some .null => ""
  | some d => (s.toText d).toOption.getD ""

/-- The whole number that a property holds. -/
def Store.count? (s : Store) (place : Nat) (key : String) : Option Nat :=
  match s.get? place key with
  | some (.number d) => d.toInt?.bind Int.toNat?
  | _ => none

/-- Where an error was made: by its stack text, or else by the numbers that it holds. -/
def Store.errorPosition? (s : Store) (place : Nat) : Option Position :=
  Position.ofStack? (s.shownText place "stack").toList wrapperLines <|> do
    let line ← s.count? place "lineNumber"
    if wrapperLines < line then
      return ⟨line - wrapperLines, (s.count? place "columnNumber").getD 1⟩
    else none

/-- The error that a thrown error ends the run with. Syntax errors are shown in `source`. -/
def uncaughtError (source : List Char) (s : Store) (place : Nat) : ExecutionError :=
  let name := (s.text? place "name").getD ""
  let message := s.shownText place "message"
  let position := s.errorPosition? place
  if name = ErrorKind.malformed.name then
    .syntaxError source message (position.getD ⟨1, 1⟩)
  else .runtime (Snapshot.errorText name message) (position.map Position.line)

def uncaught (source : List Char) (s : Store) (d : Datum) : ExecutionError :=
  match s.object? d, d with
  | some ⟨.error, _, _⟩, .object place => uncaughtError source s place
  | _, _ => .runtime ("Uncaught: " ++ (s.snapshot d).render) none

def ofFault (source : List Char) (fault : SyntaxFault) : RunOutput :=
  .failed (.syntaxError source fault.message fault.position) []

/-- Runs a prepared script in the isolated engine, for `timeout` milliseconds at most. Only a
script that waits can run out of time. -/
def runIsolated (timeout : Nat) (prepared : Prepared) : RunOutput :=
  match Program.ofSource prepared.normalized, Program.ofSource prepared.instrumented with
  | .error fault, _ => ofFault prepared.normalized fault
  | _, .error fault => ofFault prepared.normalized fault
  | .ok _, .ok program =>
    let waits := needsAsync prepared.instrumented
    let (ended, m) := (program.runToEnd waits).run.run (.initial program (0 < timeout))
    match ended with
    | .ok d => .completed (m.store.snapshot d) prepared.resultLine m.logs
    | .error (.thrown d) => .failed (uncaught prepared.normalized m.store d) m.logs
    | .error .stuck => .failed (.timeout timeout) m.logs

end SnippetRunner.Engine
