import SnippetRunner.Engine.Isolated
import SnippetRunner.Run.Backend
import SnippetRunner.Run.Registry

/-
  Executing a script. The isolated backend runs it unless a reason speaks against that, and a
  script that the isolated backend could not parse is handed to a runtime if there is one. Each
  run is in the registry as long as it lasts.
-/
namespace SnippetRunner

open SnippetRunner.Script

/-- Where scripts are executed. Times are in milliseconds. -/
structure Host where
  settings : ExecutionSettings
  environment : Environment
  runtime : Option Runtime
  workingDirectory : String
  /-- The time that a run is allowed beyond its timeout. -/
  exitGrace : Nat

structure Request where
  id : Nat
  script : List Char
  timeout : Option Nat
  /-- Whether the caller has already given up. -/
  cancelled : Bool
  startedAt : Nat
  deriving DecidableEq, Repr

/-- A backend that was given the script. -/
inductive Attempt where
  | isolated (prepared : Prepared)
  | subprocess (payload : Payload)
  deriving DecidableEq, Repr

/-- The result of a request and what it leaves behind. -/
structure Execution where
  result : ExecutionResult
  attempts : List Attempt
  registry : Registry

/-- What runs the scripts of a host: the engine inside the program, which gives nothing if it
overruns its budget, and the processes that runtimes are started as. -/
structure Runners where
  engine : (timeout : Nat) → Prepared → Option RunOutput
  pid? : Payload → Option Nat

/-- The engine of this program. -/
def Runners.own : Runners where
  engine timeout prepared := some (Engine.runIsolated timeout prepared)
  pid? _ := none

namespace Host

/-- How long a run may take before it is stopped. -/
def budget (host : Host) (timeout : Nat) : Nat := timeout + host.exitGrace

def timeoutOf (host : Host) (request : Request) : Nat :=
  request.timeout.getD host.settings.defaultTimeout

/-- The backend for a script, by what the script needs. -/
def selection (host : Host) (script : List Char) : SelectionReason :=
  selectBackend (host.settings.withEnvironment host.environment) (Capability.required script)
    isolatedProfile (subprocessProfile host.runtime)

def payload (host : Host) (request : Request) : Payload :=
  ⟨request.script, prepare request.script, host.workingDirectory, host.timeoutOf request⟩

/-- Where the runtime of this host looks for modules. -/
def modulePath (host : Host) : String :=
  SnippetRunner.modulePath host.workingDirectory (host.environment.get? "NODE_PATH")

/-- Runs a script on a backend, entered into the registry for as long as it runs. The token of a
run is its id. A run that overran its budget gave nothing, and has run out of time. -/
def runGuarded (host : Host) (request : Request) (backend : BackendKind) (pid : Option Nat)
    (ran : Option RunOutput) (r : Registry) : RunOutput × Registry :=
  let timeout := host.timeoutOf request
  let entered := r.register request.id backend request.id (host.budget timeout) request.startedAt
  let running :=
    match pid with
    | some pid => entered.attachPid request.id pid
    | none => entered
  (ran.getD (.failed (.timeout timeout) []), (running.finish request.id request.startedAt).2)

/-- Runs the script in the runtime, after runs that have overrun are taken out. -/
def runFallback (host : Host) (runners : Runners) (request : Request) (r : Registry) :
    RunOutput × List Attempt × Registry :=
  let r := (r.reapStuck .subprocess request.startedAt host.exitGrace).2
  match host.runtime with
  | none =>
    let (output, r) :=
      host.runGuarded request .subprocess none (some (.failed noRuntime [])) r
    (output, [], r)
  | some runtime =>
    let payload := host.payload request
    let (output, r) :=
      host.runGuarded request .subprocess (runners.pid? payload) (runtime.run? payload) r
    (output, [.subprocess payload], r)

/-- Runs the script in the isolated backend, and then in the runtime if another parser may
accept it. Nothing of the first run is kept then. -/
def runIsolatedFirst (host : Host) (runners : Runners) (request : Request) (r : Registry) :
    RunOutput × List Attempt × Registry :=
  let prepared := prepare request.script
  let ran := runners.engine (host.timeoutOf request) prepared
  let (output, r) := host.runGuarded request .isolated none ran r
  if output.isRetryable && host.runtime.isSome then
    let (output, attempts, r) := host.runFallback runners request r
    (output, .isolated prepared :: attempts, r)
  else (output, [.isolated prepared], r)

def executeOn (host : Host) (runners : Runners) (request : Request) (r : Registry) : Execution :=
  if request.cancelled then ⟨.cancelled, [], r⟩
  else
    let (output, attempts, r) :=
      match (host.selection request.script).backend with
      | .isolated => host.runIsolatedFirst runners request r
      | .subprocess => host.runFallback runners request r
    ⟨.ofOutput output, attempts, r⟩

/-- Executes a script on the engine of this program. -/
def execute (host : Host) (request : Request) (r : Registry) : Execution :=
  host.executeOn .own request r

end Host

end SnippetRunner
