import SnippetRunner.Config
import SnippetRunner.Toml.Document

/-
  Loading the configuration. Its layers are, each over the one before: the defaults, a file, the
  variables with the name of a section and a setting, the variables with a name of their own,
  and what the caller sets.
-/
namespace SnippetRunner

open SnippetRunner.Text

/-- What the caller sets itself. The timeout is in milliseconds. -/
structure Overrides where
  runtimePath : Option String := none
  workingDirectory : Option String := none
  defaultTimeout : Option Nat := none
  forceSubprocess : Option Bool := none
  deriving DecidableEq, Repr

/-- The files that can be read, by their names. -/
abbrev Files := String → Option (List Char)

inductive ConfigError where
  /-- The file that was named is not there. -/
  | missingFile (name : String)
  /-- The file that was named has a name that is not the name of a configuration file. -/
  | unknownFormat (name : String)
  /-- The file cannot be parsed; it was found without being named if it has no name here. -/
  | malformedFile (name : Option String)
  /-- A setting cannot be read. -/
  | invalid
  deriving DecidableEq, Repr

namespace Config

/-! ## The file -/

def defaultFileName : String := "scratchpad.toml"

def fileExtension : String := "toml"

/-- The part of a file name after its last point, unless the point stands first. -/
def extension? (path : String) : Option String :=
  let name := (splitBetween (· = '/') path.toList).getLastD []
  match (splitBetween (· = '.') name).reverse with
  | last :: stem :: before =>
    if stem.isEmpty && before.isEmpty then none else some (String.ofList last)
  | _ => none

/-- The file that a path names: itself, or with the extension added. -/
def findFile (files : Files) (path : String) : Except ConfigError (List Char) :=
  let extended := if path.isEmpty then none else files (path ++ "." ++ fileExtension)
  match files path, extended with
  | some text, _ =>
    if extension? path = some fileExtension then .ok text else .error (.unknownFormat path)
  | none, some text => .ok text
  | none, none => .error (.missingFile path)

/-- The fields of the file. A path that is given has to lead to a file. -/
def fileFields (files : Files) (path : Option String) :
    Except ConfigError (List (String × ConfigValue)) := do
  let text ←
    match path with
    | some path => findFile files path
    | none => pure ((files defaultFileName).getD [])
  match Toml.read? text with
  | some fields => return fields
  | none => throw (.malformedFile path)

/-- Lays the settings of a layer over a value, each where its key leads. -/
def layOver (below : ConfigValue) (layer : List (String × ConfigValue)) : ConfigValue :=
  layer.foldl (fun root (key, value) => root.putAt (.ofKey key) value) below

/-! ## Variables -/

/-- How the names of setting variables begin, in lower case. -/
def variableStart : List Char := "scratchpad__".toList

/-- Two underscores stand between the names in a path. -/
def pointed : List Char → List Char
  | '_' :: '_' :: rest => '.' :: pointed rest
  | c :: rest => c :: pointed rest
  | [] => []

/-- The value that a text stands for: a truth value, a number or itself. -/
def variableValue (text : String) : ConfigValue :=
  if lowered text = "true" then .bool true
  else if lowered text = "false" then .bool false
  else
    match Text.integer? text.toList, Double.ofText? text.toList with
    | some n, _ => .integer n
    | none, some d => .float d
    | none, none => .text text

/-- The setting that a variable gives, if its name is that of one. -/
def variableSetting? (entry : String × String) : Option (String × ConfigValue) :=
  (dropStart? variableStart (lowered entry.1).toList).map fun path =>
    (String.ofList (pointed path), variableValue entry.2)

/-! ## Layers -/

/-- The number of a count of milliseconds that is kept in 64 bits with a sign. -/
def wrapped (n : Nat) : Int := Int.bmod n (twoPow 64)

/-- The settings that beat every layer. The caller beats the environment. -/
def overridingSettings (env : Environment) (own : Overrides) : List (String × ConfigValue) :=
  let given (key : String) (value : Option ConfigValue) := value.toList.map fun v => (key, v)
  let runtimePath := own.runtimePath.orElse fun _ => env.get? Environment.runtimePathName
  let forceSubprocess :=
    own.forceSubprocess.orElse fun _ => env.flag? Environment.forceSubprocessName
  given "execution.force_subprocess" (forceSubprocess.map .bool)
    ++ given "execution.prefer_isolated" ((env.flag? Environment.preferIsolatedName).map .bool)
    ++ given "subprocess.runtime_path" (runtimePath.map .text)
    ++ given "subprocess.working_directory" (own.workingDirectory.map .text)
    ++ given "execution.default_timeout_ms" (own.defaultTimeout.map fun n => .integer (wrapped n))

/-- All layers in one value. -/
def layered (file : List (String × ConfigValue)) (env : Environment) (own : Overrides) :
    ConfigValue :=
  [file, env.filterMap variableSetting?, overridingSettings env own].foldl layOver
    (.table ({} : Config).toFields)

/-- Loads the configuration. The file is at `path`, or where the environment says. -/
def load (files : Files) (env : Environment) (path : Option String) (own : Overrides) :
    Except ConfigError Config := do
  let path := path.orElse fun _ => env.get? Environment.configPathName
  let file ← fileFields files path
  match ofValue? (layered file env own) with
  | some config => return config
  | none => throw .invalid

end Config

end SnippetRunner
