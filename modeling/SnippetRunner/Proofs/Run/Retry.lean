import SnippetRunner.Run.Execution

/-
  Executing a request. Whatever the engine and the runtime do, the request leaves no entry of its
  own in the registry (`runs_executeOn`), and its result is a value or an error. A request that the
  isolated engine could not parse ends as if it had been given to the runtime at once: what a
  fallback run shows does not depend on the registry or the engine (`runFallback_output`).
-/
namespace SnippetRunner

open SnippetRunner.Script

/-- A result is a value without an error, or an error without a value and its line. -/
def ExecutionResult.IsTerminal (result : ExecutionResult) : Prop :=
  (result.success = true ∧ result.value.isSome = true ∧ result.error = none) ∨
    (result.success = false ∧ result.error.isSome = true ∧ result.value = none ∧
      result.resultLine = none)

theorem ExecutionResult.isTerminal_failed (error : ExecutionError) (logs : List LogEntry) :
    (failed error logs).IsTerminal := Or.inr ⟨rfl, rfl, rfl, rfl⟩

theorem ExecutionResult.isTerminal_ofOutput (output : RunOutput) :
    (ofOutput output).IsTerminal := by
  unfold ofOutput
  split
  · exact Or.inl ⟨rfl, rfl, rfl⟩
  · split
    · exact isTerminal_failed _ _
    · exact isTerminal_failed _ _

namespace Registry

theorem runs_attachPid_filter (r : Registry) (id pid : Nat) :
    (r.attachPid id pid).runs.filter (·.id ≠ id) = r.runs.filter (·.id ≠ id) := by
  show (r.runs.map _).filter _ = _
  rw [List.filter_map]
  have hids : ((fun run : TrackedRun => decide (run.id ≠ id)) ∘
      fun run => if run.id = id then { run with pid := some pid } else run) =
      fun run => decide (run.id ≠ id) := by
    funext run
    by_cases h : run.id = id
    · simp [h]
    · simp [h]
  rw [hids]
  refine (List.map_congr_left fun run hrun => ?_).trans (List.map_id _)
  have hne : run.id ≠ id := by simpa using (List.mem_filter.mp hrun).2
  rw [if_neg hne]
  rfl

end Registry

namespace Host

variable (host : Host) (runners : Runners) (request : Request)

/-! ## The branches -/

theorem executeOn_of_cancelled (r : Registry) (h : request.cancelled = true) :
    host.executeOn runners request r = ⟨.cancelled, [], r⟩ := by
  unfold executeOn
  rw [h, if_pos rfl]

theorem executeOn_of_subprocess (r : Registry) (hrequest : request.cancelled = false)
    (hbackend : (host.selection request.script).backend = .subprocess) :
    host.executeOn runners request r =
      let (output, attempts, r) := host.runFallback runners request r
      ⟨.ofOutput output, attempts, r⟩ := by
  unfold executeOn
  rw [hrequest, if_neg Bool.false_ne_true, hbackend]

theorem executeOn_of_isolated (r : Registry) (hrequest : request.cancelled = false)
    (hbackend : (host.selection request.script).backend = .isolated) :
    host.executeOn runners request r =
      let (output, attempts, r) := host.runIsolatedFirst runners request r
      ⟨.ofOutput output, attempts, r⟩ := by
  unfold executeOn
  rw [hrequest, if_neg Bool.false_ne_true, hbackend]

theorem isTerminal_executeOn (r : Registry) :
    (host.executeOn runners request r).result.IsTerminal := by
  unfold executeOn
  split
  · exact ExecutionResult.isTerminal_failed _ _
  · exact ExecutionResult.isTerminal_ofOutput _

/-! ## The registry -/

/-- A guarded run takes its own entry out again, and no other. -/
theorem runs_runGuarded (backend : BackendKind) (pid : Option Nat) (ran : Option RunOutput)
    (r : Registry) :
    (host.runGuarded request backend pid ran r).2.runs = r.runs.filter (·.id ≠ request.id) := by
  have hregister (budget : Nat) :
      (r.register request.id backend request.id budget request.startedAt).runs.filter
        (·.id ≠ request.id) = r.runs.filter (·.id ≠ request.id) := by
    show List.filter _ (_ :: _) = _
    rw [List.filter_cons_of_neg (by simp), List.filter_filter]
    simp only [Bool.and_self]
  unfold runGuarded
  cases pid with
  | none => exact hregister _
  | some pid => exact (Registry.runs_attachPid_filter _ _ _).trans (hregister _)

/-- A fallback run also takes out what has overrun. -/
theorem runs_runFallback (r : Registry) :
    (host.runFallback runners request r).2.2.runs =
      (r.runs.filter (!Registry.isStuck .subprocess request.startedAt host.exitGrace ·)).filter
        (·.id ≠ request.id) := by
  have hguarded (pid : Option Nat) (ran : Option RunOutput) :
      (host.runGuarded request .subprocess pid ran
        (r.reapStuck .subprocess request.startedAt host.exitGrace).2).2.runs =
      (r.runs.filter (!Registry.isStuck .subprocess request.startedAt host.exitGrace ·)).filter
        (·.id ≠ request.id) := runs_runGuarded ..
  unfold runFallback
  cases host.runtime with
  | none => exact hguarded none (some (.failed noRuntime []))
  | some runtime =>
    exact hguarded (runners.pid? (host.payload request)) (runtime.run? (host.payload request))

/-- A request leaves no entry of its own, and enters none for others. -/
theorem mem_runs_executeOn {r : Registry} (hrequest : request.cancelled = false)
    {run : TrackedRun} (hrun : run ∈ (host.executeOn runners request r).registry.runs) :
    run ∈ r.runs ∧ run.id ≠ request.id := by
  have hfallback {r : Registry} (h : run ∈ (host.runFallback runners request r).2.2.runs) :
      run ∈ r.runs ∧ run.id ≠ request.id := by
    rw [runs_runFallback] at h
    simp only [List.mem_filter, decide_eq_true_eq] at h
    exact ⟨h.1.1, h.2⟩
  have hguarded (ran : Option RunOutput)
      (h : run ∈ (host.runGuarded request .isolated none ran r).2.runs) :
      run ∈ r.runs ∧ run.id ≠ request.id := by
    rw [runs_runGuarded] at h
    simpa using h
  cases hbackend : (host.selection request.script).backend with
  | subprocess =>
    rw [executeOn_of_subprocess host runners request r hrequest hbackend] at hrun
    exact hfallback hrun
  | isolated =>
    rw [executeOn_of_isolated host runners request r hrequest hbackend] at hrun
    unfold runIsolatedFirst at hrun
    dsimp only at hrun
    split at hrun
    · obtain ⟨hmem, hid⟩ := hfallback hrun
      exact ⟨(hguarded _ hmem).1, hid⟩
    · exact hguarded (runners.engine (host.timeoutOf request) (prepare request.script)) hrun

/-! ## The retry -/

/-- What a fallback run shows and was given is up to the runtime alone. -/
def fallbackOutput : RunOutput × List Attempt :=
  match host.runtime with
  | none => (.failed noRuntime [], [])
  | some runtime =>
    ((runtime.run? (host.payload request)).getD (.failed (.timeout (host.timeoutOf request)) []),
      [.subprocess (host.payload request)])

theorem runFallback_output (r : Registry) :
    ((host.runFallback runners request r).1, (host.runFallback runners request r).2.1) =
      host.fallbackOutput request := by
  unfold runFallback fallbackOutput
  cases host.runtime with
  | none => rfl
  | some runtime => rfl

/-- The host with the isolated backend switched off. -/
def forced : Host :=
  { host with environment := (Environment.forceSubprocessName, "1") :: host.environment }

theorem selection_forced (script : List Char) : host.forced.selection script = .forced := by
  have hflag : host.forced.environment.flag? Environment.forceSubprocessName = some true := by
    show (Environment.get? (_ :: _) _).bind _ = _
    rw [Environment.get?, Fields.get?_cons, if_pos rfl]
    decide
  unfold selection selectBackend
  rw [ExecutionSettings.withEnvironment, hflag]
  rfl

/-- Given to the runtime at once, a request shows what the runtime makes of it. -/
theorem executeOn_forced (r : Registry) (hrequest : request.cancelled = false) :
    (host.forced.executeOn runners request r).result = .ofOutput (host.fallbackOutput request).1 ∧
      (host.forced.executeOn runners request r).attempts = (host.fallbackOutput request).2 := by
  have hbackend : (host.forced.selection request.script).backend = .subprocess := by
    rw [selection_forced]
    rfl
  have hsame : host.fallbackOutput request = host.forced.fallbackOutput request := rfl
  rw [executeOn_of_subprocess host.forced runners request r hrequest hbackend, hsame,
    ← runFallback_output host.forced runners request r]
  exact ⟨rfl, rfl⟩

/-- So it does after the isolated engine could not parse it. -/
theorem executeOn_of_retryable (r : Registry) (hrequest : request.cancelled = false)
    (hbackend : (host.selection request.script).backend = .isolated) {output : RunOutput}
    (hran : runners.engine (host.timeoutOf request) (prepare request.script) = some output)
    (hretry : output.isRetryable = true) (hruntime : host.runtime.isSome = true) :
    (host.executeOn runners request r).result = .ofOutput (host.fallbackOutput request).1 ∧
      (host.executeOn runners request r).attempts =
        .isolated (prepare request.script) :: (host.fallbackOutput request).2 := by
  have hguarded :
      (host.runGuarded request .isolated none (some output) r).1.isRetryable = true := hretry
  rw [executeOn_of_isolated host runners request r hrequest hbackend]
  unfold runIsolatedFirst
  dsimp only
  rw [hran, hguarded, hruntime, Bool.and_self, if_pos rfl,
    ← runFallback_output host runners request]
  exact ⟨rfl, rfl⟩

/-! ## Every request -/

/-- On a registry without entries, a request leaves none, so that there is nothing to cancel; its
result is a value or an error; a request cancelled beforehand starts no backend; and one that the
isolated engine could not parse ends as if it had been given to the runtime at once, on whatever
registry and beside whatever engine. -/
theorem executeOn_ends_cleanly (r : Registry) (hempty : r.runs = []) :
    (host.executeOn runners request r).registry.runs = [] ∧
      (host.executeOn runners request r).registry.cancelAll.1 = 0 ∧
      (host.executeOn runners request r).result.IsTerminal ∧
      (request.cancelled = true →
        (host.executeOn runners request r).result = .cancelled ∧
        (host.executeOn runners request r).result.logs = [] ∧
        (host.executeOn runners request r).attempts = []) ∧
      (∀ output, request.cancelled = false →
        (host.selection request.script).backend = .isolated →
        runners.engine (host.timeoutOf request) (prepare request.script) = some output →
        output.isRetryable = true → host.runtime.isSome = true →
        ∀ (others : Runners) (r' : Registry),
          (host.executeOn runners request r).result =
              (host.forced.executeOn others request r').result ∧
            (host.executeOn runners request r).attempts =
              .isolated (prepare request.script) ::
                (host.forced.executeOn others request r').attempts) := by
  have hruns : (host.executeOn runners request r).registry.runs = [] := by
    cases hrequest : request.cancelled with
    | true =>
      rw [executeOn_of_cancelled host runners request r hrequest]
      exact hempty
    | false =>
      refine List.eq_nil_iff_forall_not_mem.mpr fun run hrun => ?_
      obtain ⟨hmem, -⟩ := mem_runs_executeOn host runners request hrequest hrun
      rw [hempty] at hmem
      cases hmem
  refine ⟨hruns, congrArg List.length hruns, isTerminal_executeOn host runners request r,
    fun h => ?_, fun output hrequest hbackend hran hretry hruntime others r' => ?_⟩
  · rw [executeOn_of_cancelled host runners request r h]
    exact ⟨rfl, rfl, rfl⟩
  · obtain ⟨hresult, hattempts⟩ :=
      executeOn_of_retryable host runners request r hrequest hbackend hran hretry hruntime
    obtain ⟨hresult', hattempts'⟩ := executeOn_forced host others request r' hrequest
    rw [hresult, hattempts, hresult', hattempts']
    exact ⟨rfl, rfl⟩

end Host

/-- A host with a runtime that answers with the first line of its script. -/
def answering : Host where
  settings := {}
  environment := []
  runtime := some ⟨"node", fun payload =>
    .ok ⟨"\x7b\"success\":true,\"result\":\"".toList ++ payload.script.takeWhile (· ≠ '\n')
      ++ "\"\x7d".toList, [], false⟩⟩
  workingDirectory := "/"
  exitGrace := 1000

/-- A script that the isolated engine runs, and logs a value for; then it throws what looks like
an error of the parser. -/
def misread : Request :=
  ⟨0, "'a'\nthrow new SyntaxError('unexpected token')".toList, none, false, 0⟩

theorem executeOn_ends_cleanly_misread :
    Registry.empty.runs = [] ∧
      (answering.executeOn .own misread .empty).registry.runs = [] ∧
      (Engine.runIsolated 5000 (prepare misread.script)).logs.length = 1 ∧
      (answering.executeOn .own misread .empty).result =
        (answering.forced.executeOn .own misread .empty).result ∧
      (answering.executeOn .own misread .empty).result.success = true ∧
      (answering.executeOn .own misread .empty).result.logs.length = 0 := by
  obtain ⟨hruns, -, -, -, hretry⟩ :=
    Host.executeOn_ends_cleanly answering .own misread .empty rfl
  obtain ⟨hresult, -⟩ := hretry (Engine.runIsolated 5000 (prepare misread.script)) rfl
    (by decide +kernel) rfl (by decide +kernel) rfl .own .empty
  refine ⟨rfl, hruns, by decide +kernel, hresult, ?_, ?_⟩
  · rw [hresult]
    decide +kernel
  · rw [hresult]
    decide +kernel

end SnippetRunner
