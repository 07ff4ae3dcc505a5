import SnippetRunner.Run.Runtime

/-
  The two backends: what they declare, and how they are reported.
-/
namespace SnippetRunner

/-- The isolated engine is always there and offers nothing of the outside. -/
def isolatedProfile : BackendProfile := ⟨false, [], true⟩

/-- A runtime offers everything but audio. -/
def subprocessProfile (runtime : Option Runtime) : BackendProfile :=
  ⟨true, Capability.all.filter (· ≠ .audio), runtime.isSome⟩

structure BackendReport where
  kind : BackendKind
  profile : BackendProfile
  detail : String
  deriving DecidableEq, Repr

namespace BackendReport

def bytesPerMebibyte : Nat := 1024 * 1024

def isolated (memoryLimit : Nat) : BackendReport where
  kind := .isolated
  profile := isolatedProfile
  detail := "isolated (QuickJS, " ++ Nat.repr (memoryLimit / bytesPerMebibyte) ++ " MiB heap)"

def subprocess (runtime : Option Runtime) : BackendReport where
  kind := .subprocess
  profile := subprocessProfile runtime
  detail := "subprocess (" ++ (runtime.map Runtime.path).getD "no runtime found" ++ ")"

def all (memoryLimit : Nat) (runtime : Option Runtime) : List BackendReport :=
  [isolated memoryLimit, subprocess runtime]

/-- The availability of a backend in words. -/
def status (report : BackendReport) : String :=
  if report.profile.available then "available" else "unavailable"

end BackendReport

end SnippetRunner
