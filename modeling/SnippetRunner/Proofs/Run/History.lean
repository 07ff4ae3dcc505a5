import Mathlib.Data.List.Nodup
import Mathlib.Data.Set.Card
import SnippetRunner.Proofs.Text.Cut
import SnippetRunner.Run.Registry

/-
  Registries over time. What a registry holds is read off the history of what was done with it:
  each entry is a registration that nothing after it took out again (`mem_runs_after`), and a token
  is cancelled by what was done while its entry stood (`cancelled_after`). Both follow from what
  one event does to the entries (`runs_step`), to the cancelled tokens and to the processes.
-/
namespace SnippetRunner.Registry

open SnippetRunner.Text

/-- What is done with a registry. -/
inductive Event where
  | register (id : Nat) (backend : BackendKind) (token budget now : Nat)
  | attachPid (id pid : Nat)
  | finish (id now : Nat)
  | cancelAll
  | reapStuck (backend : BackendKind) (now grace : Nat)
  deriving DecidableEq, Repr

def step (r : Registry) : Event → Registry
  | .register id backend token budget now => r.register id backend token budget now
  | .attachPid id pid => r.attachPid id pid
  | .finish id now => (r.finish id now).2
  | .cancelAll => r.cancelAll.2
  | .reapStuck backend now grace => (r.reapStuck backend now grace).2

/-- The registry that a history leaves. -/
def after (history : List Event) : Registry := history.foldl step empty

namespace Event

/-- The entry that a registration makes. -/
def entered? : Event → Option TrackedRun
  | register id backend token budget now => some ⟨id, backend, token, now, now + budget, none⟩
  | _ => none

/-- The token given at a registration. -/
def token? (e : Event) : Option Nat := e.entered?.map TrackedRun.token

/-- The process that the event notes for `id`. -/
def pid? (id : Nat) : Event → Option Nat
  | attachPid id' pid => if id' = id then some pid else none
  | _ => none

/-- The event is a reaping that finds the run overdue. -/
def reaps (run : TrackedRun) : Event → Bool
  | reapStuck backend now grace => isStuck backend now grace run
  | _ => false

/-- The event takes the run out: it ends, it is reaped, or its id is entered anew. -/
def removes (run : TrackedRun) : Event → Bool
  | register id _ _ _ _ => id = run.id
  | finish id _ => id = run.id
  | reapStuck backend now grace => isStuck backend now grace run
  | attachPid _ _ => false
  | cancelAll => false

def cancels (run : TrackedRun) : Event → Bool
  | cancelAll => true
  | reapStuck backend now grace => isStuck backend now grace run
  | _ => false

/-- The entry of a run that the event leaves in. -/
def note (e : Event) (run : TrackedRun) : TrackedRun :=
  { run with pid := (e.pid? run.id).or run.pid }

theorem entered_eq {e : Event} {run : TrackedRun} (h : e.entered? = some run) :
    { run with pid := none } = run := by
  cases e with
  | register id backend token budget now =>
    rw [← Option.some.inj h]
  | _ => cases h

end Event

/-! ## One event -/

theorem runs_step (r : Registry) (e : Event) :
    (r.step e).runs = e.entered?.toList ++ (r.runs.filter (!e.removes ·)).map e.note := by
  have hnote {e : Event} (he : ∀ id, e.pid? id = none) (runs : List TrackedRun) :
      runs.map e.note = runs := by
    refine (List.map_congr_left fun run _ => ?_).trans (List.map_id runs)
    rw [Event.note, he, Option.none_or]
    rfl
  cases e with
  | register id backend token budget now =>
    rw [hnote fun _ => rfl]
    simp [step, register, Event.entered?, Event.removes, eq_comm]
  | attachPid id pid =>
    have hkept : r.runs.filter (!(Event.attachPid id pid).removes ·) = r.runs :=
      List.filter_eq_self.mpr fun _ _ => rfl
    rw [hkept]
    refine List.map_congr_left fun run _ => ?_
    by_cases h : run.id = id
    · simp [Event.note, Event.pid?, h]
    · simp [Event.note, Event.pid?, h, Ne.symm h]
  | finish id now =>
    rw [hnote fun _ => rfl]
    simp [step, finish, keep, Event.entered?, Event.removes, eq_comm]
  | cancelAll =>
    rw [hnote fun _ => rfl]
    exact (List.filter_eq_self.mpr fun _ _ => rfl).symm
  | reapStuck backend now grace =>
    rw [hnote fun _ => rfl]
    rfl

theorem mem_runs_step {r : Registry} {e : Event} {run : TrackedRun} :
    run ∈ (r.step e).runs ↔
      e.entered? = some run ∨ ∃ old ∈ r.runs, e.removes old = false ∧ e.note old = run := by
  rw [runs_step, List.mem_append, Option.mem_toList, List.mem_map]
  simp only [List.mem_filter, Bool.not_eq_true', and_assoc]

theorem cancelled_step (r : Registry) (e : Event) :
    (r.step e).cancelled =
      r.cancelled ++ (r.runs.filter (e.cancels ·)).map TrackedRun.token := by
  cases e with
  | cancelAll =>
    have hall : r.runs.filter (Event.cancelAll.cancels ·) = r.runs :=
      List.filter_eq_self.mpr fun _ _ => rfl
    rw [hall]
    rfl
  | reapStuck backend now grace => rfl
  | _ => simp [step, register, attachPid, finish, keep, Event.cancels]

theorem killed_step (r : Registry) (e : Event) :
    (r.step e).killed = r.killed ++ (r.runs.filter (e.reaps ·)).filterMap TrackedRun.pid := by
  cases e with
  | reapStuck backend now grace => rfl
  | _ => simp [step, register, attachPid, finish, cancelAll, keep, Event.reaps]

/-! ## Histories -/

theorem after_concat (history : List Event) (e : Event) :
    after (history ++ [e]) = (after history).step e := by
  rw [after, List.foldl_append]
  rfl

/-- The run was entered, and `later` is what was done since. -/
def EnteredBefore (history : List Event) (run : TrackedRun) (later : List Event) : Prop :=
  ∃ before entering, history = before ++ entering :: later ∧ entering.entered? = some run

/-- The run was entered, and nothing that was done since took it out. -/
structure StandsSince (history : List Event) (run : TrackedRun) (later : List Event) : Prop where
  entered : EnteredBefore history run later
  stays : ∀ e ∈ later, e.removes run = false

/-- The process noted last for `id`. -/
def lastPid (id : Nat) (later : List Event) : Option Nat :=
  (later.filterMap (Event.pid? id)).getLast?

theorem lastPid_concat (id : Nat) (later : List Event) (e : Event) :
    lastPid id (later ++ [e]) = (e.pid? id).or (lastPid id later) := by
  rw [lastPid, List.filterMap_append, List.getLast?_append]
  cases h : e.pid? id <;> simp [lastPid, h]

theorem enteredBefore_concat {history later : List Event} {e : Event} {run : TrackedRun} :
    EnteredBefore (history ++ [e]) run later ↔
      (later = [] ∧ e.entered? = some run) ∨
        ∃ earlier, later = earlier ++ [e] ∧ EnteredBefore history run earlier := by
  constructor
  · rintro ⟨before, entering, hsplit, hrun⟩
    rcases List.eq_nil_or_concat later with rfl | ⟨earlier, last, rfl⟩
    · have hlast := (List.append_inj' hsplit rfl).2
      obtain rfl : e = entering := (List.cons.inj hlast).1
      exact Or.inl ⟨rfl, hrun⟩
    · rw [List.concat_eq_append, ← List.cons_append, ← List.append_assoc] at hsplit
      obtain ⟨hhistory, hlast⟩ := List.append_inj' hsplit rfl
      obtain rfl : e = last := (List.cons.inj hlast).1
      exact Or.inr ⟨earlier, by rw [List.concat_eq_append], before, entering, hhistory, hrun⟩
  · rintro (⟨rfl, hrun⟩ | ⟨earlier, rfl, before, entering, rfl, hrun⟩)
    · exact ⟨history, e, rfl, hrun⟩
    · exact ⟨before, entering, by simp, hrun⟩

theorem standsSince_concat {history later : List Event} {e : Event} {run : TrackedRun} :
    StandsSince (history ++ [e]) run later ↔
      (later = [] ∧ e.entered? = some run) ∨
        ∃ earlier, later = earlier ++ [e] ∧ StandsSince history run earlier ∧
          e.removes run = false := by
  constructor
  · rintro ⟨hentered, hstays⟩
    rcases enteredBefore_concat.mp hentered with h | ⟨earlier, rfl, h⟩
    · exact Or.inl h
    · refine Or.inr ⟨earlier, rfl, ⟨h, fun x hx => hstays x (List.mem_append_left _ hx)⟩, ?_⟩
      exact hstays e (by simp)
  · rintro (h | ⟨earlier, rfl, ⟨h, hstays⟩, hremoves⟩)
    · refine ⟨enteredBefore_concat.mpr (Or.inl h), ?_⟩
      rw [h.1]
      exact fun _ h => nomatch h
    · refine ⟨enteredBefore_concat.mpr (Or.inr ⟨earlier, rfl, h⟩), fun x hx => ?_⟩
      rcases List.mem_append.mp hx with hx | hx
      · exact hstays x hx
      · rw [List.mem_singleton.mp hx]
        exact hremoves

/-- The entries are the registrations that still stand, each with the process noted last. -/
theorem mem_runs_after {history : List Event} {run : TrackedRun} :
    run ∈ (after history).runs ↔
      ∃ entered later, StandsSince history entered later ∧
        { entered with pid := lastPid entered.id later } = run := by
  induction history using List.reverseRecOn generalizing run with
  | nil =>
    refine iff_of_false (fun h => nomatch h) ?_
    rintro ⟨entered, later, ⟨⟨before, entering, hsplit, -⟩, -⟩, -⟩
    simp at hsplit
  | append_singleton history e ih =>
    have hnoted (entered : TrackedRun) (earlier : List Event) :
        e.note { entered with pid := lastPid entered.id earlier } =
          { entered with pid := lastPid entered.id (earlier ++ [e]) } := by
      rw [lastPid_concat]
      rfl
    have hremoves (entered : TrackedRun) (pid : Option Nat) :
        e.removes { entered with pid := pid } = e.removes entered := by
      cases e <;> rfl
    rw [after_concat, mem_runs_step]
    constructor
    · rintro (hentered | ⟨old, hold, hkept, rfl⟩)
      · exact ⟨run, [], standsSince_concat.mpr (Or.inl ⟨rfl, hentered⟩), Event.entered_eq hentered⟩
      · obtain ⟨entered, earlier, hstands, rfl⟩ := ih.mp hold
        rw [hremoves] at hkept
        exact ⟨entered, earlier ++ [e],
          standsSince_concat.mpr (Or.inr ⟨earlier, rfl, hstands, hkept⟩), (hnoted ..).symm⟩
    · rintro ⟨entered, later, hstands, rfl⟩
      rcases standsSince_concat.mp hstands with ⟨rfl, hentered⟩ | ⟨earlier, rfl, hstands, hkept⟩
      · exact Or.inl (hentered.trans (congrArg some (Event.entered_eq hentered).symm))
      · exact Or.inr ⟨_, ih.mpr ⟨entered, earlier, hstands, rfl⟩, by rw [hremoves, hkept],
          hnoted ..⟩

/-- A list that grows with every event holds what some event added to it. -/
theorem mem_log_after {α : Type} {log : Registry → List α} {adds : Event → Registry → List α}
    (hempty : log empty = []) (hstep : ∀ r e, log (r.step e) = log r ++ adds e r)
    {history : List Event} {a : α} :
    a ∈ log (after history) ↔
      ∃ before e rest, history = before ++ e :: rest ∧ a ∈ adds e (after before) := by
  induction history using List.reverseRecOn with
  | nil =>
    refine iff_of_false (by rw [after, List.foldl_nil, hempty]; exact List.not_mem_nil) ?_
    rintro ⟨before, e, rest, hsplit, -⟩
    simp at hsplit
  | append_singleton history last ih =>
    rw [after_concat, hstep, List.mem_append, ih]
    constructor
    · rintro (⟨before, e, rest, rfl, ha⟩ | ha)
      · exact ⟨before, e, rest ++ [last], by simp, ha⟩
      · exact ⟨history, last, [], rfl, ha⟩
    · rintro ⟨before, e, rest, hsplit, ha⟩
      rcases List.eq_nil_or_concat rest with rfl | ⟨earlier, x, rfl⟩
      · obtain ⟨rfl, hlast⟩ := List.append_inj' hsplit rfl
        rw [(List.cons.inj hlast).1]
        exact Or.inr ha
      · rw [List.concat_eq_append, ← List.cons_append, ← List.append_assoc] at hsplit
        exact Or.inl ⟨before, e, earlier, (List.append_inj' hsplit rfl).1, ha⟩

/-- A token is cancelled by an event that finds an entry with it. -/
theorem cancelled_after {history : List Event} {token : Nat} :
    token ∈ (after history).cancelled ↔
      ∃ before e rest, history = before ++ e :: rest ∧
        ∃ run later, StandsSince before run later ∧ e.cancels run = true ∧ run.token = token := by
  have hcancels (e : Event) (run : TrackedRun) (pid : Option Nat) :
      e.cancels { run with pid := pid } = e.cancels run := by
    cases e <;> rfl
  rw [mem_log_after rfl cancelled_step]
  simp only [List.mem_map, List.mem_filter, mem_runs_after]
  constructor
  · rintro ⟨before, e, rest, hsplit, _, ⟨⟨run, later, hstands, rfl⟩, hcancel⟩, rfl⟩
    rw [hcancels] at hcancel
    exact ⟨before, e, rest, hsplit, run, later, hstands, hcancel, rfl⟩
  · rintro ⟨before, e, rest, hsplit, run, later, hstands, hcancel, rfl⟩
    exact ⟨before, e, rest, hsplit, _,
      ⟨⟨run, later, hstands, rfl⟩, by rw [hcancels, hcancel]⟩, rfl⟩

/-- A process is killed by a reaping that finds it noted in an entry that is overdue. -/
theorem killed_after {history : List Event} {pid : Nat} :
    pid ∈ (after history).killed ↔
      ∃ before e rest, history = before ++ e :: rest ∧
        ∃ run later, StandsSince before run later ∧ e.reaps run = true ∧
          lastPid run.id later = some pid := by
  have hreaps (e : Event) (run : TrackedRun) (pid : Option Nat) :
      e.reaps { run with pid := pid } = e.reaps run := by
    cases e <;> rfl
  rw [mem_log_after rfl killed_step]
  simp only [List.mem_filterMap, List.mem_filter, mem_runs_after]
  constructor
  · rintro ⟨before, e, rest, hsplit, _, ⟨⟨run, later, hstands, rfl⟩, hreap⟩, hpid⟩
    rw [hreaps] at hreap
    exact ⟨before, e, rest, hsplit, run, later, hstands, hreap, hpid⟩
  · rintro ⟨before, e, rest, hsplit, run, later, hstands, hreap, hpid⟩
    exact ⟨before, e, rest, hsplit, _, ⟨⟨run, later, hstands, rfl⟩, by rw [hreaps, hreap]⟩, hpid⟩

/-! ## Entries by their ids -/

theorem get?_eq_some_iff {r : Registry} {id : Nat} {run : TrackedRun} :
    r.get? id = some run ↔ run ∈ r.runs ∧ run.id = id := by
  constructor
  · intro h
    exact ⟨List.mem_of_find?_eq_some h, by simpa using List.find?_some h⟩
  · rintro ⟨hmem, hid⟩
    cases hfound : r.get? id with
    | none =>
      have hnone := List.find?_eq_none.mp hfound run hmem
      simp [hid] at hnone
    | some found =>
      have hsame : found.id = run.id := by
        rw [hid]
        simpa using List.find?_some hfound
      have hmem' : found ∈ r.runs := List.mem_of_find?_eq_some hfound
      rw [List.inj_on_of_nodup_map r.distinct hmem' hmem hsame]

/-- Entries are counted by their ids. -/
theorem ncard_ids (r : Registry) (p : TrackedRun → Bool) :
    {id | ∃ run ∈ r.runs, p run = true ∧ run.id = id}.ncard = (r.runs.filter p).length := by
  have hids : {id | ∃ run ∈ r.runs, p run = true ∧ run.id = id} =
      ((r.runs.filter p).map TrackedRun.id).toFinset := by
    ext id
    simp [and_assoc]
  rw [hids, Set.ncard_coe_finset, List.toFinset_card_of_nodup (r.nodup_filter p), List.length_map]

theorem inFlight_eq_add (r : Registry) :
    r.inFlight = r.inFlightFor .isolated + r.inFlightFor .subprocess := by
  have hother : (fun run : TrackedRun => decide (run.backend = .subprocess)) =
      fun run => decide ¬decide (run.backend = .isolated) = true := by
    funext run
    cases run.backend <;> rfl
  rw [inFlight, inFlightFor, inFlightFor, hother]
  exact List.length_eq_countP_add_countP _

/-- `id` was entered, and its latest entry is still there. -/
def InFlight (history : List Event) (id : Nat) : Prop :=
  ∃ run later, StandsSince history run later ∧ run.id = id

/-- `id` is in flight on `backend` and has overrun its deadline by `grace`. -/
def Overdue (history : List Event) (backend : BackendKind) (now grace id : Nat) : Prop :=
  ∃ run later, StandsSince history run later ∧ run.id = id ∧ run.backend = backend ∧
    run.deadline + grace ≤ now

theorem inFlight_iff {history : List Event} {id : Nat} :
    InFlight history id ↔ ∃ run ∈ (after history).runs, run.id = id := by
  constructor
  · rintro ⟨run, later, hstands, rfl⟩
    exact ⟨_, mem_runs_after.mpr ⟨run, later, hstands, rfl⟩, rfl⟩
  · rintro ⟨_, hmem, rfl⟩
    obtain ⟨run, later, hstands, rfl⟩ := mem_runs_after.mp hmem
    exact ⟨run, later, hstands, rfl⟩

theorem overdue_iff {history : List Event} {backend : BackendKind} {now grace id : Nat} :
    Overdue history backend now grace id ↔
      ∃ run ∈ (after history).runs, isStuck backend now grace run = true ∧ run.id = id := by
  constructor
  · rintro ⟨run, later, hstands, rfl, hbackend, hdeadline⟩
    refine ⟨_, mem_runs_after.mpr ⟨run, later, hstands, rfl⟩, ?_, rfl⟩
    simp [isStuck, hbackend, hdeadline]
  · rintro ⟨_, hmem, hstuck, rfl⟩
    obtain ⟨run, later, hstands, rfl⟩ := mem_runs_after.mp hmem
    simp only [isStuck, Bool.and_eq_true, decide_eq_true_eq] at hstuck
    exact ⟨run, later, hstands, rfl, hstuck⟩

theorem isSome_get?_iff {history : List Event} {id : Nat} :
    ((after history).get? id).isSome = true ↔ InFlight history id := by
  rw [inFlight_iff, Option.isSome_iff_exists]
  exact exists_congr fun run => get?_eq_some_iff

theorem get?_reapStuck {history : List Event} {backend : BackendKind} {now grace id : Nat}
    {run : TrackedRun} :
    ((after history).reapStuck backend now grace).2.get? id = some run ↔
      (after history).get? id = some run ∧ ¬Overdue history backend now grace id := by
  have hruns : ((after history).reapStuck backend now grace).2.runs =
      (after history).runs.filter (!isStuck backend now grace ·) := rfl
  rw [get?_eq_some_iff, get?_eq_some_iff, hruns, List.mem_filter, overdue_iff, Bool.not_eq_true']
  constructor
  · rintro ⟨⟨hmem, hkept⟩, hid⟩
    refine ⟨⟨hmem, hid⟩, ?_⟩
    rintro ⟨other, hother, hstuck, hsame⟩
    have : other = run :=
      List.inj_on_of_nodup_map (after history).distinct hother hmem (hsame.trans hid.symm)
    rw [this, hkept] at hstuck
    cases hstuck
  · rintro ⟨⟨hmem, hid⟩, hnot⟩
    refine ⟨⟨hmem, ?_⟩, hid⟩
    exact Bool.eq_false_iff.mpr fun hstuck => hnot ⟨run, hmem, hstuck, hid⟩

theorem attachPid_of_not_mem {r : Registry} {id : Nat} (h : ∀ run ∈ r.runs, run.id ≠ id)
    (pid : Nat) : r.attachPid id pid = r := by
  have hruns : (r.runs.map fun run => if run.id = id then { run with pid := some pid } else run) =
      r.runs := by
    refine (List.map_congr_left fun run hmem => ?_).trans (List.map_id r.runs)
    rw [if_neg (h run hmem)]
    rfl
  obtain ⟨runs, cancelled, killed, distinct⟩ := r
  simpa only [attachPid, mk.injEq, and_true] using hruns

/-! ## Fresh tokens -/

/-- A registration is known by its token if no token is given twice. -/
theorem EnteredBefore.unique {history : List Event}
    (hfresh : (history.filterMap Event.token?).Nodup) {run run' : TrackedRun}
    {later later' : List Event} (h : EnteredBefore history run later)
    (h' : EnteredBefore history run' later') (htoken : run.token = run'.token) :
    run = run' ∧ later = later' := by
  -- Of two different places with the token, one would lie behind the other.
  have hapart {before m rest : List Event} {x y : Event} {a b : TrackedRun}
      (hsplit : history = before ++ x :: (m ++ y :: rest)) (hx : x.entered? = some a)
      (hy : y.entered? = some b) : a.token ≠ b.token := by
    rw [hsplit] at hfresh
    intro hsame
    simp [List.filterMap_append, List.nodup_append, Event.token?, hx, hy, hsame] at hfresh
  obtain ⟨before, x, hx, hrun⟩ := h
  obtain ⟨before', y, hy, hrun'⟩ := h'
  rcases append_eq_append_cons (hx.symm.trans hy) with ⟨m, rfl, hm⟩ | ⟨m, rfl, rfl⟩
  · cases m with
    | nil =>
      obtain ⟨rfl, rfl⟩ := List.cons.inj hm
      exact ⟨Option.some.inj (hrun.symm.trans hrun'), rfl⟩
    | cons z m =>
      obtain ⟨rfl, rfl⟩ := List.cons.inj hm
      exact absurd htoken (hapart hx hrun hrun')
  · exact absurd htoken.symm (hapart hy hrun' hrun)

/-- Where tokens are fresh, a token is cancelled by what was done while its own entry stood. -/
theorem isCancelled_iff {history : List Event} (hfresh : (history.filterMap Event.token?).Nodup)
    {run : TrackedRun} {later : List Event} (h : EnteredBefore history run later) :
    (after history).isCancelled run.token = true ↔
      ∃ meanwhile e rest, later = meanwhile ++ e :: rest ∧
        (∀ x ∈ meanwhile, x.removes run = false) ∧ e.cancels run = true := by
  rw [isCancelled, List.contains_iff_mem, cancelled_after]
  constructor
  · rintro ⟨before, e, rest, rfl, run', meanwhile, hstands, hcancel, htoken⟩
    obtain ⟨before', entering, rfl, hentering⟩ := hstands.entered
    have hentered : EnteredBefore (before' ++ entering :: meanwhile ++ e :: rest) run'
        (meanwhile ++ e :: rest) := ⟨before', entering, by simp, hentering⟩
    obtain ⟨rfl, rfl⟩ := h.unique hfresh hentered htoken.symm
    exact ⟨meanwhile, e, rest, rfl, hstands.stays, hcancel⟩
  · rintro ⟨meanwhile, e, rest, rfl, hstays, hcancel⟩
    obtain ⟨before, entering, rfl, hentering⟩ := h
    exact ⟨before ++ entering :: meanwhile, e, rest, by simp, run, meanwhile,
      ⟨⟨before, entering, rfl, hentering⟩, hstays⟩, hcancel, rfl⟩

/-! ## The whole registry -/

/-- What a registry tells about the history that it has. -/
structure Accounts (history : List Event) (r : Registry) : Prop where
  /-- An entry is the latest registration of its id, with the process noted last. -/
  entry : ∀ {id run}, r.get? id = some run ↔
    ∃ entered later, StandsSince history entered later ∧ entered.id = id ∧
      { entered with pid := lastPid id later } = run
  /-- The count of all entries, and of those of each backend. -/
  count : r.inFlight = {id | InFlight history id}.ncard
  backends : r.inFlight = r.inFlightFor .isolated + r.inFlightFor .subprocess
  finish : ∀ id now, (r.finish id now).1.isSome = true ↔ InFlight history id
  cancelAll : r.cancelAll.1 = r.inFlight ∧ r.cancelAll.2.runs = r.runs
  /-- Reaping counts and takes out what is overdue, and nothing else. -/
  reaped : ∀ backend now grace,
    (r.reapStuck backend now grace).1 = {id | Overdue history backend now grace id}.ncard ∧
      ∀ {id run}, (r.reapStuck backend now grace).2.get? id = some run ↔
        r.get? id = some run ∧ ¬Overdue history backend now grace id
  /-- A token is cancelled by what was done while its entry stood. -/
  token : ∀ {run later}, EnteredBefore history run later →
    (r.isCancelled run.token = true ↔ ∃ meanwhile e rest, later = meanwhile ++ e :: rest ∧
      (∀ x ∈ meanwhile, x.removes run = false) ∧ e.cancels run = true)
  /-- A cancelled token stays cancelled. -/
  cancelled : ∀ {token more}, r.isCancelled token = true →
    (after (history ++ more)).isCancelled token = true
  /-- A process is killed when the entry that it is noted in is reaped. -/
  killed : ∀ {pid}, pid ∈ r.killed ↔ ∃ before e rest, history = before ++ e :: rest ∧
    ∃ run later, StandsSince before run later ∧ e.reaps run = true ∧
      lastPid run.id later = some pid
  absent : ∀ {id} pid, ¬InFlight history id → r.attachPid id pid = r

/-- After any history in which each registration has a token of its own. -/
theorem accounts_after (history : List Event) (hfresh : (history.filterMap Event.token?).Nodup) :
    Accounts history (after history) where
  entry {id run} := by
    rw [get?_eq_some_iff, mem_runs_after]
    constructor
    · rintro ⟨⟨entered, later, hstands, rfl⟩, rfl⟩
      exact ⟨entered, later, hstands, rfl, rfl⟩
    · rintro ⟨entered, later, hstands, rfl, rfl⟩
      exact ⟨⟨entered, later, hstands, rfl⟩, rfl⟩
  count := by
    have hall := ncard_ids (after history) fun _ => true
    simp only [List.filter_true, true_and] at hall
    simp only [inFlight_iff, hall]
    rfl
  backends := inFlight_eq_add _
  finish id now := by
    rw [← isSome_get?_iff]
    exact Eq.congr (Option.isSome_map ..) rfl
  cancelAll := ⟨rfl, rfl⟩
  reaped backend now grace := by
    refine ⟨?_, get?_reapStuck⟩
    simp only [overdue_iff, ncard_ids]
    rfl
  token := isCancelled_iff hfresh
  cancelled {token more} h := by
    rw [isCancelled, List.contains_iff_mem, cancelled_after] at h ⊢
    obtain ⟨before, e, rest, rfl, h⟩ := h
    exact ⟨before, e, rest ++ more, by simp, h⟩
  killed := killed_after
  absent {id} pid h := by
    refine attachPid_of_not_mem (fun run hmem hid => h ?_) pid
    exact inFlight_iff.mpr ⟨run, hmem, hid⟩

/-- The run of token 0 is entered anew before all are cancelled, and the run of token 1 is reaped
with its process. -/
def rerun : List Event :=
  [.register 1 .isolated 0 10 0, .attachPid 1 41, .register 2 .subprocess 1 10 0, .attachPid 2 42,
    .register 1 .isolated 2 10 5, .cancelAll, .reapStuck .subprocess 15 5, .finish 2 20]

theorem accounts_after_rerun :
    (rerun.filterMap Event.token?).Nodup ∧ {id | InFlight rerun id}.ncard = 1 ∧
      InFlight rerun 1 ∧ ¬InFlight rerun 2 ∧ (after rerun).cancelled = [2, 1, 1] ∧
      (after rerun).killed = [42] ∧ Accounts rerun (after rerun) := by
  have hfresh : (rerun.filterMap Event.token?).Nodup := by decide
  have haccounts := accounts_after rerun hfresh
  refine ⟨hfresh, haccounts.count.symm.trans (by decide), (haccounts.finish 1 0).mp (by decide),
    fun h => ?_, by decide, by decide, haccounts⟩
  exact absurd ((haccounts.finish 2 0).mpr h) (by decide)

end SnippetRunner.Registry
