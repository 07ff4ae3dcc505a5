import SnippetRunner.Text.Numeral
import SnippetRunner.Text.Split

/-
  The arguments of the command line: options that begin with two dashes, in any order, and what
  stands between them.
-/
namespace SnippetRunner.Cli

open SnippetRunner.Text

inductive Command where
  | run (file : String) (timeout : Option Nat) (forceSubprocess json : Bool)
  | prepare (file : String)
  | backends
  deriving DecidableEq, Repr

structure Invocation where
  configPath : Option String
  command : Command
  deriving DecidableEq, Repr

/-- Which options a command has, and how many files. -/
structure Usage where
  valueOptions : List String
  flags : List String
  files : Nat
  deriving DecidableEq, Repr

/-- The arguments of a command. -/
structure Given where
  values : List (String × String)
  flags : List String
  files : List String
  deriving DecidableEq, Repr

def configOption : String := "--config"

def timeoutOption : String := "--timeout-ms"

def forceFlag : String := "--force-subprocess"

def jsonFlag : String := "--json"

/-- Whether an argument is taken as an option; a single dash is not. -/
def looksLikeOption (argument : String) : Bool :=
  match argument.toList with
  | '-' :: _ :: _ => true
  | _ => false

/-- The name of an option, and the value after an equals sign. -/
def splitOption (argument : String) : String × Option String :=
  let name := argument.toList.takeWhile (· ≠ '=')
  match argument.toList.dropWhile (· ≠ '=') with
  | [] => (argument, none)
  | _ :: value => (String.ofList name, some (String.ofList value))

namespace Given

def addValue? (g : Given) (name value : String) : Option Given :=
  if g.values.any (·.1 = name) then none else some { g with values := g.values ++ [(name, value)] }

def addFlag? (g : Given) (name : String) : Option Given :=
  if g.flags.contains name then none else some { g with flags := g.flags ++ [name] }

def addFile? (usage : Usage) (g : Given) (file : String) : Option Given :=
  if g.files.length < usage.files && !file.isEmpty then some { g with files := g.files ++ [file] }
  else none

/-- Reads arguments; after two dashes all are files. No option may be given twice. -/
def read? (usage : Usage) (g : Given) : List String → Option Given
  | [] => some g
  | "--" :: files => files.foldlM (addFile? usage) g
  | argument :: rest =>
    if !looksLikeOption argument then (g.addFile? usage argument).bind (read? usage · rest)
    else
      match splitOption argument, rest with
      | (name, some value), rest =>
        if usage.valueOptions.contains name then (g.addValue? name value).bind (read? usage · rest)
        else none
      | (name, none), value :: others =>
        if usage.flags.contains name then (g.addFlag? name).bind (read? usage · (value :: others))
        else if usage.valueOptions.contains name && !looksLikeOption value then
          (g.addValue? name value).bind (read? usage · others)
        else none
      | (name, none), [] => if usage.flags.contains name then g.addFlag? name else none

def value? (g : Given) (name : String) : Option String :=
  (g.values.find? (·.1 = name)).map Prod.snd

/-- The value of the option `name` as a count, if it is given as one. -/
def count? (g : Given) (name : String) : Option (Option Nat) :=
  match g.value? name with
  | none => some none
  | some text => (Text.count? text.toList).map some

end Given

def usage? (command : String) : Option Usage :=
  if command = "run" then some ⟨[configOption, timeoutOption], [forceFlag, jsonFlag], 1⟩
  else if command = "prepare" then some ⟨[configOption], [], 1⟩
  else if command = "backends" then some ⟨[configOption], [], 0⟩
  else none

/-- The command of a name with its arguments. -/
def command? (name : String) (g : Given) : Option Command :=
  match name, g.files with
  | "run", [file] => (g.count? timeoutOption).map fun timeout =>
      .run file timeout (g.flags.contains forceFlag) (g.flags.contains jsonFlag)
  | "prepare", [file] => some (.prepare file)
  | "backends", [] => some .backends
  | _, _ => none

/-- Separates the configuration path before the command from the command and its arguments. -/
def splitCommand? : List String → Option (Option String × String × List String)
  | [] => none
  | argument :: rest =>
    if !looksLikeOption argument then some (none, argument, rest)
    else
      match splitOption argument, rest with
      | (name, some path), command :: rest =>
        if name = configOption && !looksLikeOption command then some (some path, command, rest)
        else none
      | (name, none), path :: command :: rest =>
        if name = configOption && !looksLikeOption path && !looksLikeOption command then
          some (some path, command, rest)
        else none
      | _, _ => none

/-- Reads the arguments. A configuration path after the command beats one before it; an empty
path is none. -/
def Invocation.ofArguments? (arguments : List String) : Option Invocation := do
  let (before, name, rest) ← splitCommand? arguments
  let usage ← usage? name
  let given ← Given.read? usage ⟨[], [], []⟩ rest
  let command ← command? name given
  let after := given.value? configOption
  if before = some "" || after = some "" then none
  else some ⟨after.orElse fun _ => before, command⟩

end SnippetRunner.Cli
