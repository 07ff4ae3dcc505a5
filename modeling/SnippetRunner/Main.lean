import SnippetRunner.Cli.Answer

/-
  The command-line program. It collects what a command can read, answers and prints. It starts
  no processes, so a runtime that is found cannot be used.
-/
namespace SnippetRunner.Cli

/-- The variables that are read. -/
def variableNames : List String :=
  [Environment.forceSubprocessName, Environment.preferIsolatedName, Environment.runtimePathName,
    Environment.configPathName, "NODE_PATH"]
    ++ (Config.toFields
        { subprocess := { runtimePath := some "", workingDirectory := some "" } }).flatMap
      fun (name, settings) => settings.fields.map fun (key, _) =>
        "SCRATCHPAD__" ++ name.toUpper ++ "__" ++ key.toUpper

def readText (name : String) : IO (Option (List Char)) :=
  try return some (← IO.FS.readFile name).toList catch _ => return none

def fileExists (name : String) : IO Bool :=
  try
    let _ ← IO.FS.Handle.mk name .read
    return true
  catch _ => return false

/-- Those of the names that name something, each with what it names. -/
def collect {α : Type} (names : List String) (find : String → IO (Option α)) :
    IO (List (String × α)) :=
  names.filterMapM fun name => return (← find name).map fun found => (name, found)

/-- The files that a command may read. -/
def fileNames (env : Environment) (invocation : Invocation) : List String :=
  let path := invocation.configPath.orElse fun _ => env.get? Environment.configPathName
  let config := (path.map fun path => [path, path ++ "." ++ Config.fileExtension]).getD []
  let script :=
    match invocation.command with
    | .run file .. => [file]
    | .prepare file => [file]
    | .backends => []
  config ++ script ++ [".env", Config.defaultFileName]

/-- The paths at which a runtime may be. -/
def runtimePaths (s : Surroundings) (invocation : Invocation) : List String :=
  let configured :=
    match s.config invocation.configPath {} with
    | .ok config => config.subprocess.runtimePath.toList
    | .error _ => []
  (s.fullEnvironment.get? Environment.runtimePathName).toList ++ configured

def readsInput (invocation : Invocation) : Bool :=
  match invocation.command with
  | .run file .. => file = "-"
  | .prepare file => file = "-"
  | .backends => false

def surroundings (invocation : Invocation) : IO Surroundings := do
  let env : Environment ← collect variableNames (IO.getEnv ·)
  let full := env.withFile ((← readText ".env").getD [])
  let files ← collect (fileNames full invocation) readText
  let input ← if readsInput invocation then (← IO.getStdin).readToEnd else pure ""
  let s : Surroundings := ⟨env, input.toList, Fields.get? files, fun _ => none, "."⟩
  let runtimes ← collect (runtimePaths s invocation) fun path => do
    let runtime : Runtime := ⟨path, fun _ => .error "this program starts no processes"⟩
    return if ← fileExists path then some runtime else none
  return { s with runtimeAt := Fields.get? runtimes }

end SnippetRunner.Cli

open SnippetRunner.Cli

def main (arguments : List String) : IO UInt32 := do
  let reply ←
    match Invocation.ofArguments? arguments with
    | none => pure Answer.usageError
    | some invocation => do
      let s ← surroundings invocation
      pure (answer s arguments)
  IO.print reply.stdout
  IO.eprint reply.stderr
  return reply.code.toUInt32
