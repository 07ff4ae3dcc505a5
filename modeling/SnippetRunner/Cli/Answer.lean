import SnippetRunner.Cli.Invocation
import SnippetRunner.Config.Dotenv
import SnippetRunner.Config.Load
import SnippetRunner.Json.Printer
import SnippetRunner.Run.Execution
import SnippetRunner.Snapshot.Render

/-
  What the command line answers. Results go to the standard output, warnings and errors to the
  standard error.
-/
namespace SnippetRunner.Cli

open SnippetRunner.Script

/-- All that a command can read. -/
structure Surroundings where
  environment : Environment
  input : List Char
  files : Files
  /-- The runtime at a path, if there is one. -/
  runtimeAt : String → Option Runtime
  directory : String

structure Answer where
  code : Nat
  stdout : String
  stderr : String
  deriving DecidableEq, Repr

namespace Answer

def printed (stdout : String) : Answer := ⟨0, stdout, ""⟩

def usageError : Answer :=
  ⟨2, "", "usage: scratchpad [--config PATH] (run FILE [--timeout-ms N] [--force-subprocess] "
    ++ "[--json] | prepare FILE | backends)\n"⟩

/-- A failure outside of a script, by what was tried and why it failed. -/
def failed (chain : List String) : Answer := ⟨1, "", "Error: " ++ ": ".intercalate chain ++ "\n"⟩

end Answer

/-! ## Results -/

/-- A line for one of the streams. -/
structure OutputLine where
  isError : Bool
  text : String
  deriving DecidableEq, Repr

def lineMark (line : Option Nat) : String :=
  "[line " ++ (line.map Nat.repr).getD "?" ++ "]"

def logLine (entry : LogEntry) : OutputLine :=
  let mark := lineMark entry.line
  let message := entry.message.render
  match entry.kind with
  | .result => ⟨false, mark ++ " => " ++ message⟩
  | .warn | .error => ⟨true, mark ++ " " ++ message⟩
  | .log | .info => ⟨false, mark ++ " " ++ message⟩

/-- Every line two columns to the right. -/
def indentLines (text : String) : String :=
  let indented := text.toList.flatMap fun c => if c = '\n' then ['\n', ' ', ' '] else [c]
  String.ofList (' ' :: ' ' :: indented)

/-- The logs, and then the value or the error; an undefined value is not shown. -/
def resultLines (result : ExecutionResult) : List OutputLine :=
  let ended : List OutputLine :=
    match result.value.filter (!·.isUndefined), result.error with
    | some value, _ => [⟨false, value.render⟩]
    | none, some error => [⟨true, "Error:"⟩, ⟨true, indentLines error⟩]
    | none, none => []
  result.logs.map logLine ++ ended

/-- The lines of one stream. -/
def stream (isError : Bool) (lines : List OutputLine) : String :=
  String.join ((lines.filter (·.isError = isError)).map fun line => line.text ++ "\n")

def ofResult (json : Bool) (result : ExecutionResult) : Answer :=
  let code := if result.success then 0 else 1
  if json then ⟨code, result.encode.indented ++ "\n", ""⟩
  else
    let lines := resultLines result
    ⟨code, stream false lines, stream true lines⟩

/-! ## Errors -/

def loadingFrom (path : Option String) : String :=
  "Failed to load configuration" ++ (path.map (" from " ++ ·)).getD ""

def configFailure (directory : String) : ConfigError → Answer
  | .missingFile path =>
    .failed [loadingFrom path, "configuration file \"" ++ path ++ "\" not found"]
  | .unknownFormat path =>
    let place := if path.startsWith "/" then path else joinPath directory path
    .failed [loadingFrom path,
      "configuration file \"" ++ place ++ "\" is not of a registered file format"]
  | .malformedFile path => .failed [loadingFrom path, "TOML parse error"]
  | .invalid => .failed ["Invalid configuration"]

/-! ## Commands -/

/-- The variables, with those of the file of variables. -/
def Surroundings.fullEnvironment (s : Surroundings) : Environment :=
  s.environment.withFile ((s.files ".env").getD [])

/-- The text of a script, or what the failure to read it says. -/
def Surroundings.script (s : Surroundings) (file : String) : Except Answer (List Char) :=
  if file = "-" then .ok s.input
  else
    match s.files file with
    | some text => .ok text
    | none => .error (.failed ["Failed to read " ++ file, "No such file or directory (os error 2)"])

def Surroundings.config (s : Surroundings) (path : Option String) (own : Overrides) :
    Except Answer Config :=
  match Config.load s.files s.fullEnvironment path own with
  | .ok config => .ok config
  | .error e => .error (configFailure s.directory e)

/-- The runtime that the environment names, or else the one that is configured. -/
def Surroundings.runtime? (s : Surroundings) (config : Config) : Option Runtime :=
  ((s.fullEnvironment.get? Environment.runtimePathName).bind s.runtimeAt).orElse fun _ =>
    config.subprocess.runtimePath.bind s.runtimeAt

def Surroundings.host (s : Surroundings) (config : Config) : Host where
  settings := config.execution
  environment := s.fullEnvironment
  runtime := s.runtime? config
  workingDirectory := config.subprocess.workingDirectory.getD s.directory
  exitGrace := config.subprocess.exitGrace

def padRight (width : Nat) (text : String) : String :=
  text ++ String.ofList (List.replicate (width - text.length) ' ')

def reportLine (report : BackendReport) : String :=
  report.kind.name ++ " | " ++ padRight 11 report.status ++ " | " ++ report.detail ++ "\n"

/-- The answer to a command, or the failure before it could begin. -/
def answerCommand (s : Surroundings) (configPath : Option String) :
    Command → Except Answer Answer
  | .run file timeout forceSubprocess json => do
    let own : Overrides := { forceSubprocess := if forceSubprocess then some true else none }
    let config ← s.config configPath own
    let script ← s.script file
    return ofResult json ((s.host config).execute ⟨0, script, timeout, false, 0⟩ .empty).result
  | .prepare file => do
    return .printed ((prepare (← s.script file)).encode.indented ++ "\n")
  | .backends => do
    let config ← s.config configPath {}
    let reports := BackendReport.all config.isolated.memoryLimit (s.runtime? config)
    return .printed (String.join (reports.map reportLine))

def answer (s : Surroundings) (arguments : List String) : Answer :=
  match Invocation.ofArguments? arguments with
  | none => .usageError
  | some invocation =>
    match answerCommand s invocation.configPath invocation.command with
    | .ok answer => answer
    | .error answer => answer

end SnippetRunner.Cli
