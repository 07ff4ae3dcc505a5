import SnippetRunner.Config.Value
import SnippetRunner.Toml.Printer

/-
  The configuration: all settings, by sections. A value is read section by section; a setting
  that is not given has its default.
-/
namespace SnippetRunner

/-- Limits of the isolated engine. -/
structure IsolatedSettings where
  memoryLimit : Nat := 67108864
  maxStack : Nat := 1048576
  deriving DecidableEq, Repr

/-- How an outside runtime is run. -/
structure SubprocessSettings where
  runtimePath : Option String := none
  workingDirectory : Option String := none
  exitGrace : Nat := 1000
  deriving DecidableEq, Repr

structure Config where
  execution : ExecutionSettings := {}
  isolated : IsolatedSettings := {}
  subprocess : SubprocessSettings := {}
  deriving DecidableEq, Repr

namespace Config

/-! ## Names -/

def executionKeys : List String := ["default_timeout_ms", "force_subprocess", "prefer_isolated"]

def isolatedKeys : List String := ["memory_limit_bytes", "max_stack_bytes"]

def subprocessKeys : List String := ["runtime_path", "working_directory", "exit_grace_ms"]

/-! ## Reading -/

/-- The settings of a section that are given: by their names in a table, by their order in a
list. A scalar is no section. -/
def sectionFields? (names : List String) : ConfigValue → Option (List (String × ConfigValue))
  | .table fields => some fields
  | .list items => some (names.zip items)
  | _ => none

/-- A section, by its name among all of them; one that is not given has no settings. -/
def section? (root : ConfigValue) (name : String) (names : List String) :
    Option (List (String × ConfigValue)) :=
  match Fields.get? root.fields name with
  | none => some []
  | some value => sectionFields? names value

/-- Reads a setting, or takes its default. -/
def setting {α : Type} (fields : List (String × ConfigValue)) (name : String) (absent : α)
    (read : ConfigValue → Option α) : Option α :=
  match Fields.get? fields name with
  | none => some absent
  | some value => read value

/-- The configuration that a value is, if every setting can be read. -/
def ofValue? (root : ConfigValue) : Option Config := do
  let execution ← section? root "execution" executionKeys
  let isolated ← section? root "isolated" isolatedKeys
  let subprocess ← section? root "subprocess" subprocessKeys
  let path (value : ConfigValue) :=
    match value with
    | .absent => some none
    | value => value.toText?.map some
  return {
    execution := {
      defaultTimeout := ← setting execution "default_timeout_ms" 5000 ConfigValue.toCount?
      forceSubprocess := ← setting execution "force_subprocess" false ConfigValue.toBool?
      preferIsolated := ← setting execution "prefer_isolated" true ConfigValue.toBool? }
    isolated := {
      memoryLimit := ← setting isolated "memory_limit_bytes" 67108864 ConfigValue.toCount?
      maxStack := ← setting isolated "max_stack_bytes" 1048576 ConfigValue.toCount? }
    subprocess := {
      runtimePath := ← setting subprocess "runtime_path" none path
      workingDirectory := ← setting subprocess "working_directory" none path
      exitGrace := ← setting subprocess "exit_grace_ms" 1000 ConfigValue.toCount? } }

/-! ## Writing -/

def optionalField (name : String) (value : Option String) : List (String × ConfigValue) :=
  value.toList.map fun text => (name, .text text)

/-- All sections, with all settings that have a value. -/
def toFields (c : Config) : List (String × ConfigValue) :=
  [("execution", .table [("default_timeout_ms", .integer c.execution.defaultTimeout),
      ("force_subprocess", .bool c.execution.forceSubprocess),
      ("prefer_isolated", .bool c.execution.preferIsolated)]),
    ("isolated", .table [("memory_limit_bytes", .integer c.isolated.memoryLimit),
      ("max_stack_bytes", .integer c.isolated.maxStack)]),
    ("subprocess", .table (optionalField "runtime_path" c.subprocess.runtimePath
      ++ optionalField "working_directory" c.subprocess.workingDirectory
      ++ [("exit_grace_ms", .integer c.subprocess.exitGrace)]))]

/-- The configuration as the text of a configuration file, if its numbers can be written. -/
def toToml? (c : Config) : Option String := (Toml.sectionsText? c.toFields).map String.ofList

end Config

end SnippetRunner
