import SnippetRunner.Run.Selection

/-
  The runs in flight. Every run is entered under its id when it starts and taken out when it
  ends, or when it is found to have overrun its deadline. Entries hold the cancellation token of
  their run, and the process that it runs in if it has one; a token that has been cancelled stays
  so.
-/
namespace SnippetRunner

/-- A run in flight. Times are in milliseconds. -/
structure TrackedRun where
  id : Nat
  backend : BackendKind
  token : Nat
  startedAt : Nat
  deadline : Nat
  pid : Option Nat
  deriving DecidableEq, Repr

structure Registry where
  runs : List TrackedRun
  /-- The tokens cancelled so far. -/
  cancelled : List Nat
  /-- The processes killed so far. -/
  killed : List Nat
  distinct : (runs.map TrackedRun.id).Nodup
  deriving DecidableEq, Repr

namespace Registry

def empty : Registry := ⟨[], [], [], List.nodup_nil⟩

def get? (r : Registry) (id : Nat) : Option TrackedRun := r.runs.find? (·.id = id)

def isCancelled (r : Registry) (token : Nat) : Bool := r.cancelled.contains token

def inFlight (r : Registry) : Nat := r.runs.length

def inFlightFor (r : Registry) (backend : BackendKind) : Nat :=
  r.runs.countP (·.backend = backend)

theorem nodup_filter (r : Registry) (p : TrackedRun → Bool) :
    ((r.runs.filter p).map TrackedRun.id).Nodup :=
  r.distinct.sublist (List.filter_sublist.map _)

/-- Keeps the runs that satisfy `p`. -/
def keep (r : Registry) (p : TrackedRun → Bool) : Registry :=
  { r with runs := r.runs.filter p, distinct := r.nodup_filter p }

/-- Enters a run, in the place of an earlier one of the same id. -/
def register (r : Registry) (id : Nat) (backend : BackendKind) (token budget now : Nat) :
    Registry where
  runs := ⟨id, backend, token, now, now + budget, none⟩ :: r.runs.filter (·.id ≠ id)
  cancelled := r.cancelled
  killed := r.killed
  distinct := by
    rw [List.map_cons, List.nodup_cons]
    exact ⟨by simp, r.nodup_filter _⟩

/-- Notes the process that runs `id`. -/
def attachPid (r : Registry) (id pid : Nat) : Registry where
  runs := r.runs.map fun run => if run.id = id then { run with pid := some pid } else run
  cancelled := r.cancelled
  killed := r.killed
  distinct := by
    have h : (r.runs.map fun run => if run.id = id then { run with pid := some pid } else run).map
        TrackedRun.id = r.runs.map TrackedRun.id := by
      rw [List.map_map]
      refine List.map_congr_left fun run _ => ?_
      simp only [Function.comp]
      split <;> rfl
    rw [h]
    exact r.distinct

/-- Takes out the run `id`, and tells how long it took if it was there. -/
def finish (r : Registry) (id now : Nat) : Option Nat × Registry :=
  ((r.get? id).map fun run => now - run.startedAt, r.keep (·.id ≠ id))

/-- Cancels every run in flight and counts them. They stay until they end. -/
def cancelAll (r : Registry) : Nat × Registry :=
  (r.inFlight, { r with cancelled := r.cancelled ++ r.runs.map TrackedRun.token })

def isStuck (backend : BackendKind) (now grace : Nat) (run : TrackedRun) : Bool :=
  run.backend = backend && run.deadline + grace ≤ now

/-- Cancels and takes out the runs of a backend that have overrun their deadline by the grace,
and counts them. Their processes are killed. -/
def reapStuck (r : Registry) (backend : BackendKind) (now grace : Nat) : Nat × Registry :=
  let stuck := r.runs.filter (isStuck backend now grace)
  (stuck.length,
    { r.keep (!isStuck backend now grace ·) with
      cancelled := r.cancelled ++ stuck.map TrackedRun.token
      killed := r.killed ++ stuck.filterMap TrackedRun.pid })

end Registry

end SnippetRunner
