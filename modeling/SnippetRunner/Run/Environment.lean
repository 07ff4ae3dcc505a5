import SnippetRunner.Fields
import SnippetRunner.Run.Selection
import SnippetRunner.Text.Blank

/-
  Environment variables, and what they say about the choice of a backend.
-/
namespace SnippetRunner

open SnippetRunner.Text

/-- The variables that are set, with their values. -/
abbrev Environment := List (String × String)

namespace Environment

def get? (env : Environment) (name : String) : Option String := Fields.get? env name

def forceSubprocessName : String := "SCRATCHPAD_FORCE_SUBPROCESS"

def preferIsolatedName : String := "SCRATCHPAD_PREFER_ISOLATED"

def runtimePathName : String := "SCRATCHPAD_NODE_PATH"

def configPathName : String := "SCRATCHPAD_CONFIG_PATH"

end Environment

def yesWords : List String := ["1", "true", "yes", "on"]

def noWords : List String := ["0", "false", "no", "off"]

/-- Reads a flag, in any case and with blanks around it. -/
def flag? (text : List Char) : Option Bool :=
  let word := String.ofList ((trim text).map Char.toLower)
  if yesWords.contains word then some true
  else if noWords.contains word then some false
  else none

/-- The flag in a variable; what is no flag counts as not set. -/
def Environment.flag? (env : Environment) (name : String) : Option Bool :=
  (env.get? name).bind fun value => SnippetRunner.flag? value.toList

/-- Flags in the environment take precedence over settings. -/
def ExecutionSettings.withEnvironment (settings : ExecutionSettings) (env : Environment) :
    ExecutionSettings where
  defaultTimeout := settings.defaultTimeout
  forceSubprocess := (env.flag? Environment.forceSubprocessName).getD settings.forceSubprocess
  preferIsolated := (env.flag? Environment.preferIsolatedName).getD settings.preferIsolated

end SnippetRunner
