import SnippetRunner.Script.ModuleUse

/-
  What a script may need from the program that runs it, and which of it a script names.
-/
namespace SnippetRunner

open SnippetRunner.Source SnippetRunner.Script

inductive Capability where
  | modules
  | timers
  | network
  | process
  | buffer
  | audio
  deriving DecidableEq, Repr

namespace Capability

def all : List Capability := [modules, timers, network, process, buffer, audio]

def name : Capability → String
  | modules => "modules"
  | timers => "timers"
  | network => "network"
  | process => "process"
  | buffer => "buffer"
  | audio => "audio"

def ofName? (name : String) : Option Capability := all.find? (·.name = name)

/-- The global names that provide a capability. -/
def globals : Capability → List String
  | modules => ["require"]
  | timers => ["setTimeout", "setInterval", "setImmediate", "clearTimeout", "clearInterval"]
  | network => ["fetch"]
  | process => ["process"]
  | buffer => ["Buffer"]
  | audio => ["AudioContext", "OfflineAudioContext"]

/-- Whether the code of `source` names `global`, and not as a member of something else. -/
def mentions (source : List Char) (global : String) : Bool :=
  occursInCode (fun before text =>
    !isMember before && (afterWord? global.toList before text).isSome) source

def isRequired (source : List Char) : Capability → Bool
  | modules => usesModules source
  | capability => capability.globals.any (mentions source)

/-- The capabilities that a script needs, in the order of their declaration. -/
def required (source : List Char) : List Capability := all.filter (isRequired source)

end Capability

end SnippetRunner
