import SnippetRunner.Proofs.Inspect.Tree

/-
  Cycles. The stack knows nothing of how a value was reached, so an inspector that writes down its
  visits (`recorded`) is given the path of each one as well, by the steps that lead to it. The
  stack is this path at every visit, hence a value is shown as circular exactly when it is met
  inside of itself (`record_exact`).
-/
namespace SnippetRunner

def Snapshot.IsCircular (s : Snapshot) : Prop := ∃ name, s = .circular name

namespace Inspectable

variable {V : Type}

/-- One visit: the values that it was inside of, innermost first, the stack before and after it,
and what it showed. -/
structure Visit (V : Type) where
  path : List V
  value : V
  before : List V
  after : List V
  shown : Snapshot

/-- The stack of an inspector and its visits so far. -/
structure Record (V : Type) where
  stack : List V
  visits : List (Visit V)

instance : MonadStateOf (List V) (StateM (Record V)) where
  get := fun r => (r.stack, r)
  set p := fun r => (⟨⟩, { r with stack := p })
  modifyGet f := fun r => ((f r.stack).1, { r with stack := (f r.stack).2 })

/-- Writes down the visit that `body` makes. -/
def noted (path : List V) (v : V) (body : StateM (Record V) Snapshot) :
    StateM (Record V) Snapshot := fun r =>
  let (shown, r') := body.run r
  (shown, { r' with visits := ⟨path, v, r.stack, r'.stack, shown⟩ :: r'.visits })

variable (view : Inspectable V)

/-- The visit of a value that was reached by `path`, with every visit written down. -/
def recorded : (levels : Nat) → (path : List V) → V → StateM (Record V) Snapshot
  | 0, path, v => noted path v (return .maxDepth)
  | levels + 1, path, v => noted path v (view.visitInside (recorded levels (v :: path)) v)

/-- The snapshot of a value, and the visits made for it, the last one first. -/
def record (root : V) : Snapshot × List (Visit V) :=
  let (shown, r) := (view.recorded (maxDepth + 1) [] root).run ⟨[], []⟩
  (shown, r.visits)

/-- The steps from `root` to `v` lead through the values of the path, innermost first. -/
inductive IsPath (view : Inspectable V) (root : V) : List V → V → Prop
  | root : IsPath view root [] root
  | step {path : List V} {v c : V} (h : IsPath view root path v) (hc : view.Child v c) :
      IsPath view root (v :: path) c

/-- The snapshot of a value inside of the values of a path. -/
def subtree (path : List V) (v : V) : Snapshot := view.tree (maxDepth + 1 - path.length) path v

/-- The snapshot of an array or object with what it holds shown. -/
def expanded (path : List V) (v : V) : Snapshot :=
  (view.visitContent (m := Id) (view.subtree (v :: path)) v).run

/-- Arrays and objects hold other values. -/
def IsContainer (v : V) : Prop := (view.kind v).leaf? = none

/-- No steps lead from a value back to it. -/
def Acyclic : Prop := ∀ a v, Relation.TransGen view.Child a v → view.sameReference a v = false

/-! ## Snapshots along a path -/

section Subtree

variable {view} {path : List V} {v : V}

theorem subtree_of_deep (hdepth : maxDepth < path.length) : view.subtree path v = .maxDepth := by
  rw [subtree, show maxDepth + 1 - path.length = 0 by omega]
  rfl

theorem subtree_of_leaf {s : Snapshot} (hdepth : path.length ≤ maxDepth)
    (h : (view.kind v).leaf? = some s) : view.subtree path v = s := by
  have hlevels : maxDepth + 1 - path.length = maxDepth - path.length + 1 := by omega
  rw [subtree, hlevels, tree_succ_of_leaf h]

theorem subtree_of_onPath (hdepth : path.length ≤ maxDepth) (h : view.IsContainer v)
    (hon : view.onPath path v = true) : view.subtree path v = .circular (view.objectName v) := by
  have hlevels : maxDepth + 1 - path.length = maxDepth - path.length + 1 := by omega
  rw [subtree, hlevels, tree_succ_of_onPath h hon]

theorem subtree_of_not_onPath (hdepth : path.length ≤ maxDepth) (h : view.IsContainer v)
    (hon : view.onPath path v = false) : view.subtree path v = view.expanded path v := by
  have hlevels : maxDepth + 1 - path.length = maxDepth - path.length + 1 := by omega
  have hbelow : maxDepth - path.length = maxDepth + 1 - (v :: path).length := by
    rw [List.length_cons]
    omega
  rw [subtree, hlevels, tree_succ_of_not_onPath h hon, hbelow]
  rfl

theorem not_isCircular_of_leaf? {kind : ValueKind} {s : Snapshot} (h : kind.leaf? = some s) :
    ¬Snapshot.IsCircular s := by
  rintro ⟨name, hs⟩
  exact (ne_of_leaf? h).2.2 name hs

theorem not_isCircular_expanded (h : view.IsContainer v) :
    ¬Snapshot.IsCircular (view.expanded path v) := by
  rintro ⟨name, e⟩
  unfold expanded at e
  rcases visitContent_cases (view.subtree (v :: path)) h with ⟨_, _, e', -⟩ | ⟨_, _, e', -⟩
  · cases e.symm.trans e'
  · cases e.symm.trans e'

/-- Not too deep, exactly the arrays and objects on their own path are circular. -/
theorem isCircular_subtree_iff (hdepth : path.length ≤ maxDepth) :
    Snapshot.IsCircular (view.subtree path v) ↔
      view.IsContainer v ∧ ∃ a ∈ path, view.sameReference a v = true := by
  rw [← List.any_eq_true (p := (view.sameReference · v))]
  constructor
  · intro h
    cases hleaf : (view.kind v).leaf? with
    | some s =>
      rw [subtree_of_leaf hdepth hleaf] at h
      exact absurd h (not_isCircular_of_leaf? hleaf)
    | none =>
      cases hon : view.onPath path v with
      | true => exact ⟨hleaf, hon⟩
      | false =>
        rw [subtree_of_not_onPath hdepth hleaf hon] at h
        exact absurd h (not_isCircular_expanded hleaf)
  · rintro ⟨hcontainer, hon⟩
    exact ⟨_, subtree_of_onPath hdepth hcontainer hon⟩

end Subtree

/-! ## Recorded visits -/

/-- What is to hold of a visit made to inspect `root`. -/
structure Visit.Exact (view : Inspectable V) (root : V) (visit : Visit V) : Prop where
  path : IsPath view root visit.path visit.value
  depth : visit.path.length ≤ maxDepth + 1
  before : visit.before = visit.path
  after : visit.after = visit.before
  shown : visit.shown = view.subtree visit.path visit.value

/-- The stack is `p`, and the visits so far are exact. -/
structure Record.Exact (view : Inspectable V) (root : V) (p : List V) (r : Record V) : Prop where
  stack : r.stack = p
  visits : ∀ visit ∈ r.visits, visit.Exact view root

variable {view} {root : V}

theorem stacked_record : Stacked (Record V) (Record.Exact view root) where
  get := fun _ _ hr => ⟨hr.stack, hr⟩
  modify := fun f _ _ hr => ⟨congrArg f hr.stack, hr.visits⟩

theorem yields_noted {levels : Nat} {path : List V} {v : V} {body : StateM (Record V) Snapshot}
    (hpath : IsPath view root path v) (hlevels : path.length + levels = maxDepth + 1)
    (h : Yields (Record.Exact view root path) body (view.tree levels path v)) :
    Yields (Record.Exact view root path) (noted path v body) (view.tree levels path v) := by
  intro r hr
  obtain ⟨hshown, hr'⟩ := h r hr
  refine ⟨hshown, hr'.stack, List.forall_mem_cons.mpr ⟨?_, hr'.visits⟩⟩
  have hsubtree : view.subtree path v = view.tree levels path v := by
    rw [subtree, show maxDepth + 1 - path.length = levels by omega]
  exact {
    path := hpath
    depth := by show path.length ≤ maxDepth + 1; omega
    before := hr.stack
    after := hr'.stack.trans hr.stack.symm
    shown := hshown.trans hsubtree.symm }

theorem yields_recorded {levels : Nat} {path : List V} {v : V} (hpath : IsPath view root path v)
    (hlevels : path.length + levels = maxDepth + 1) :
    Yields (Record.Exact view root path) (view.recorded levels path v)
      (view.tree levels path v) := by
  induction levels generalizing path v with
  | zero => exact yields_noted hpath hlevels (yields_pure _)
  | succ levels ih =>
    refine yields_noted hpath hlevels (stacked_record.visitInside fun c hc => ?_)
    exact ih (.step hpath hc) (by rw [List.length_cons]; omega)

theorem record_exact (view : Inspectable V) (root : V) :
    (view.record root).1 = view.inspect root ∧
      ∀ visit ∈ (view.record root).2, visit.Exact view root := by
  have hstart : Record.Exact view root [] ⟨[], []⟩ := ⟨rfl, fun _ h => nomatch h⟩
  obtain ⟨hshown, hr⟩ := yields_recorded .root (Nat.zero_add _) _ hstart
  exact ⟨hshown.trans (inspect_eq_tree root).symm, hr.visits⟩

/-! ## Acyclic values -/

theorem IsPath.transGen {path : List V} {v : V} (h : IsPath view root path v) :
    ∀ a ∈ path, Relation.TransGen view.Child a v := by
  induction h with
  | root => exact fun _ h => nomatch h
  | step _ hc ih =>
    intro a ha
    rcases List.mem_cons.mp ha with rfl | ha
    · exact .single hc
    · exact (ih a ha).tail hc

theorem composes_not_isCircular : Composes fun s => ¬Snapshot.IsCircular s where
  undefined := by rintro ⟨_, ⟨⟩⟩
  string _ := by rintro ⟨_, ⟨⟩⟩
  maxDepth := by rintro ⟨_, ⟨⟩⟩
  object _ _ _ := by rintro ⟨_, ⟨⟩⟩
  renamed _ _ _ _ := by rintro ⟨_, ⟨⟩⟩

/-- Where no steps lead from a value back to it, nothing is shown as circular. -/
theorem Acyclic.everywhere_inspect (h : view.Acyclic) (root : V) :
    (view.inspect root).Everywhere fun s => ¬Snapshot.IsCircular s := by
  have hinvariant : Invariant view (fun s => ¬Snapshot.IsCircular s) (IsPath view root) := {
    composes := composes_not_isCircular
    step := .step
    leaf := fun _ hleaf => not_isCircular_of_leaf? hleaf
    array := fun _ => ⟨fun _ _ _ => by rintro ⟨_, ⟨⟩⟩, fun _ _ _ _ => by rintro ⟨_, ⟨⟩⟩⟩
    circular := by
      intro path v hpath _ hon
      obtain ⟨a, ha, hsame⟩ := List.any_eq_true.mp hon
      rw [h a v (hpath.transGen a ha)] at hsame
      cases hsame }
  rw [inspect_eq_tree]
  exact hinvariant.everywhere_tree .root

/-! ## The whole inspection -/

/-- Being the same reference is symmetric and transitive. Values without identity are not even
the same as themselves. -/
structure Lawful (view : Inspectable V) : Prop where
  symm : ∀ {a b}, view.sameReference a b = true → view.sameReference b a = true
  trans : ∀ {a b c}, view.sameReference a b = true → view.sameReference b c = true →
    view.sameReference a c = true

/-- Two values at one place that are the same reference are both circular or both are not. -/
theorem Lawful.isCircular_subtree (h : view.Lawful) {path : List V} {v w : V}
    (hdepth : path.length ≤ maxDepth) (hv : view.IsContainer v)
    (hsame : view.sameReference w v = true) (hw : (view.subtree path w).IsCircular) :
    (view.subtree path v).IsCircular := by
  obtain ⟨-, a, ha, haw⟩ := (isCircular_subtree_iff hdepth).mp hw
  exact (isCircular_subtree_iff hdepth).mpr ⟨hv, a, ha, h.trans haw hsame⟩

theorem subtree_of_not_isCircular {path : List V} {v : V} (hdepth : path.length ≤ maxDepth)
    (hv : view.IsContainer v) (h : ¬(view.subtree path v).IsCircular) :
    view.subtree path v = view.expanded path v := by
  cases hon : view.onPath path v with
  | true => exact absurd ⟨_, subtree_of_onPath hdepth hv hon⟩ h
  | false => exact subtree_of_not_onPath hdepth hv hon

end Inspectable

theorem Heap.lawful_view (h : Heap) : h.view.Lawful where
  symm {a b} hab := by
    cases a <;> cases b <;> simp_all [Heap.view, Value.sameReference]
  trans {a b c} hab hbc := by
    cases a <;> cases b <;> cases c <;> simp_all [Heap.view, Value.sameReference]

namespace Inspectable

/-- Every visit of an inspection finds its own path on the stack, leaves it there, and shows what
the value, its path and its depth alone determine. Not too deep, it shows an array or object as
circular exactly if it is the same reference as a value on the path, and in full otherwise; so
siblings that are the same reference are shown alike, and without cycles nothing is circular. -/
theorem record_circular (view : Inspectable V) (hview : view.Lawful) (root : V) :
    (view.record root).1 = view.inspect root ∧
      (∀ visit ∈ (view.record root).2, visit.Exact view root ∧
        (visit.path.length ≤ maxDepth →
          (visit.shown.IsCircular ↔ view.IsContainer visit.value ∧
            ∃ a ∈ visit.path, view.sameReference a visit.value = true) ∧
          (view.IsContainer visit.value → ¬visit.shown.IsCircular →
            visit.shown = view.expanded visit.path visit.value))) ∧
      (∀ first ∈ (view.record root).2, ∀ second ∈ (view.record root).2,
        first.path = second.path → first.path.length ≤ maxDepth →
        view.IsContainer first.value → view.IsContainer second.value →
        view.sameReference first.value second.value = true → ¬first.shown.IsCircular →
          first.shown = view.expanded first.path first.value ∧
          second.shown = view.expanded first.path second.value) ∧
      (view.Acyclic → (view.inspect root).Everywhere fun s => ¬s.IsCircular) := by
  obtain ⟨hresult, hvisits⟩ := record_exact view root
  refine ⟨hresult, fun visit hvisit => ?_, ?_, fun h => h.everywhere_inspect root⟩
  · have hexact := hvisits visit hvisit
    refine ⟨hexact, fun hdepth => ?_⟩
    rw [hexact.shown]
    exact ⟨isCircular_subtree_iff hdepth, subtree_of_not_isCircular hdepth⟩
  · intro first hfirst second hsecond hpath hdepth hcontainer hcontainer' hsame hnot
    have e₁ := (hvisits first hfirst).shown
    have e₂ := (hvisits second hsecond).shown
    rw [← hpath] at e₂
    rw [e₁] at hnot
    rw [e₁, e₂]
    refine ⟨subtree_of_not_isCircular hdepth hcontainer hnot, ?_⟩
    refine subtree_of_not_isCircular hdepth hcontainer' fun hcircular => hnot ?_
    exact hview.isCircular_subtree hdepth hcontainer (hview.symm hsame) hcircular

/-- An array that holds one empty object twice. -/
def twins : Heap := [.ofItems [.ref 1, .ref 1], .plain "Object" []]

theorem twins_child {v c : Value} (h : twins.view.Child v c) : v ≠ .ref 1 ∧ c = .ref 1 := by
  constructor
  · rintro rfl
    cases h with
    | item hkind _ _ => cases hkind
    | property _ _ hread => cases hread
    | prototype _ hproto => cases hproto
  · have hc : c ∈ [Value.ref 1, .ref 1] := Heap.mem_values_of_child h
    simpa using hc

theorem twins_acyclic : twins.view.Acyclic := by
  intro a v h
  have hv : v = .ref 1 := by
    cases h with
    | single h => exact (twins_child h).2
    | tail _ h => exact (twins_child h).2
  have ha : a ≠ .ref 1 := by
    obtain ⟨b, hab, -⟩ := Relation.TransGen.head'_iff.mp h
    exact (twins_child hab).1
  subst hv
  show Value.sameReference a (.ref 1) = false
  cases a with
  | ref place => exact decide_eq_false fun hplace => ha (by rw [hplace])
  | _ => rfl

theorem twins_not_circular :
    twins.view.Lawful ∧ twins.view.Acyclic ∧
      (twins.view.inspect (.ref 0)).Everywhere fun s => ¬s.IsCircular := by
  obtain ⟨-, -, -, hacyclic⟩ := record_circular twins.view twins.lawful_view (.ref 0)
  exact ⟨twins.lawful_view, twins_acyclic, hacyclic twins_acyclic⟩

end Inspectable

end SnippetRunner
