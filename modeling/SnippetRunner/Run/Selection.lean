import SnippetRunner.Capability

/-
  The choice of a backend: the isolated one runs scripts inside the program, the subprocess one
  hands them to an outside runtime.
-/
namespace SnippetRunner

inductive BackendKind where
  | isolated
  | subprocess
  deriving DecidableEq, Repr

def BackendKind.name : BackendKind → String
  | isolated => "isolated"
  | subprocess => "subprocess"

def BackendKind.ofName? (name : String) : Option BackendKind :=
  [BackendKind.isolated, .subprocess].find? (·.name = name)

/-- What a backend declares about itself. -/
structure BackendProfile where
  modules : Bool
  capabilities : List Capability
  available : Bool
  deriving DecidableEq, Repr

def BackendProfile.supports (profile : BackendProfile) (capability : Capability) : Bool :=
  profile.capabilities.contains capability

/-- How scripts are run. -/
structure ExecutionSettings where
  defaultTimeout : Nat := 5000
  forceSubprocess : Bool := false
  preferIsolated : Bool := true
  deriving DecidableEq, Repr

inductive SelectionReason where
  | forced
  | isolatedNotPreferred
  | isolatedUnavailable
  | moduleLoading
  | hostCapability
  | default
  deriving DecidableEq, Repr

namespace SelectionReason

def text : SelectionReason → String
  | forced => "forced"
  | isolatedNotPreferred => "isolated not preferred"
  | isolatedUnavailable => "isolated unavailable"
  | moduleLoading => "module loading"
  | hostCapability => "host capability"
  | default => "default"

/-- Every reason but the default one speaks for the subprocess backend. -/
def backend : SelectionReason → BackendKind
  | default => .isolated
  | _ => .subprocess

end SelectionReason

/-- Whether the fallback offers something required that the isolated backend lacks. What both
lack does not count, and module loading is a question of its own. -/
def fallbackOffersMore (required : List Capability) (isolated fallback : BackendProfile) : Bool :=
  required.any fun capability =>
    capability ≠ .modules && !isolated.supports capability && fallback.supports capability

/-- The first reason against the isolated backend, if there is one. -/
def selectBackend (settings : ExecutionSettings) (required : List Capability)
    (isolated fallback : BackendProfile) : SelectionReason :=
  if settings.forceSubprocess then .forced
  else if !settings.preferIsolated then .isolatedNotPreferred
  else if !isolated.available then .isolatedUnavailable
  else if required.contains .modules && !isolated.modules then .moduleLoading
  else if fallbackOffersMore required isolated fallback && fallback.available then .hostCapability
  else .default

end SnippetRunner
