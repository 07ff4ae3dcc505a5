import SnippetRunner.Inspect

/-
  The stack of the inspector. Visiting a value leaves the stack as it was, and what it shows is a
  function of the value, the levels left and the stack, which `tree` gives (`yields_visit`).
  `Yields` says such a thing of any part of the inspector: it gives a known result and keeps what
  is known about the state. The state may hold more than the stack (`Stacked`).
-/
namespace SnippetRunner.Inspectable

/-- From every state with `I`, the computation gives `a` and leaves a state with `I`. -/
def Yields {σ α : Type} (I : σ → Prop) (x : StateM σ α) (a : α) : Prop :=
  ∀ s, I s → (x.run s).1 = a ∧ I (x.run s).2

section Yields

variable {σ α β : Type} {I : σ → Prop}

theorem yields_pure (a : α) : Yields I (pure a) a := fun _ hs => ⟨rfl, hs⟩

theorem Yields.bind {x : StateM σ α} {f : α → StateM σ β} {a : α} {b : β} (hx : Yields I x a)
    (hf : Yields I (f a) b) : Yields I (x >>= f) b := by
  intro s hs
  obtain ⟨ha, hs'⟩ := hx s hs
  have hrun : (x >>= f).run s = (f (x.run s).1).run (x.run s).2 := rfl
  rw [hrun, ha]
  exact hf _ hs'

theorem Yields.map {x : StateM σ α} {a : α} (hx : Yields I x a) (f : α → β) :
    Yields I (f <$> x) (f a) := by
  intro s hs
  obtain ⟨ha, hs'⟩ := hx s hs
  exact ⟨congrArg f ha, hs'⟩

theorem Yields.ite {c : Prop} [Decidable c] {x y : StateM σ α} {a b : Id α}
    (hx : c → Yields I x a.run) (hy : ¬c → Yields I y b.run) :
    Yields I (if c then x else y) (if c then a else b).run := by
  by_cases h : c
  · rw [if_pos h, if_pos h]
    exact hx h
  · rw [if_neg h, if_neg h]
    exact hy h

end Yields

variable {V : Type} (view : Inspectable V)

theorem leaf?_eq_none {kind : ValueKind} (h : kind.leaf? = none) :
    (∃ length, kind = .array length) ∨ kind = .object := by
  cases kind with
  | array length => exact Or.inl ⟨length, rfl⟩
  | object => exact Or.inr rfl
  | _ => cases h

/-- The keys that are read of an object: those listed by it or its prototypes, and those that an
audio object shows. -/
def objectKeys (v : V) : List String :=
  view.ownKeys v ++ view.inheritedKeys v ++ (AudioProperties.find? (view.objectName v)).getD []

/-- `c` is an item, a property or the prototype of the array or object `v`. -/
inductive Child (view : Inspectable V) (v c : V) : Prop
  | item {length index : Nat} (hkind : view.kind v = .array length) (hindex : index < length)
      (h : view.property v (Nat.repr index) = .ok (some c))
  | property {key : String} (hkind : view.kind v = .object) (hkey : key ∈ view.objectKeys v)
      (h : view.property v key = .ok (some c))
  | prototype (hkind : view.kind v = .object) (h : view.prototype? v = some c)

/-- What the property holds is a child. -/
def Reads (view : Inspectable V) (v : V) (key : String) : Prop :=
  ∀ c, view.property v key = .ok (some c) → view.Child v c

section Reads

variable {view} {v : V}

theorem reads_item {length : Nat} (hkind : view.kind v = .array length) :
    ∀ key ∈ (List.range (min length maxItems)).map Nat.repr, Reads view v key := by
  intro key hkey c hc
  obtain ⟨index, hindex, rfl⟩ := List.mem_map.mp hkey
  exact .item hkind (by have := List.mem_range.mp hindex; omega) hc

theorem reads_own (hkind : view.kind v = .object) :
    ∀ key ∈ Fields.firstOccurrences (view.ownKeys v), Reads view v key := by
  intro key hkey c hc
  refine .property hkind ?_ hc
  simp [objectKeys, Fields.mem_firstOccurrences.mp hkey]

theorem reads_inherited (hkind : view.kind v = .object) :
    ∀ key ∈ Fields.firstOccurrences (view.inheritedKeys v), Reads view v key := by
  intro key hkey c hc
  refine .property hkind ?_ hc
  simp [objectKeys, Fields.mem_firstOccurrences.mp hkey]

theorem reads_curated (hkind : view.kind v = .object) {keys : List String}
    (hkeys : AudioProperties.find? (view.objectName v) = some keys) :
    ∀ key ∈ Fields.firstOccurrences keys, Reads view v key := by
  intro key hkey c hc
  refine .property hkind ?_ hc
  simp [objectKeys, hkeys, Fields.mem_firstOccurrences.mp hkey]

end Reads

/-! ## The contents of one value -/

section Content

variable {view} {σ : Type} {I : σ → Prop} {visit : V → StateM σ Snapshot} {shown : V → Snapshot}
  {v : V}

/-- Visiting what `v` holds gives what `shown` says. -/
def Shows (view : Inspectable V) (I : σ → Prop) (visit : V → StateM σ Snapshot)
    (shown : V → Snapshot) (v : V) : Prop :=
  ∀ c, view.Child v c → Yields I (visit c) (shown c)

theorem Shows.readSlot? (h : Shows view I visit shown v) {key : String} (hkey : Reads view v key) :
    Yields I (view.readSlot? visit v key) (view.readSlot? (m := Id) shown v key).run := by
  unfold Inspectable.readSlot?
  cases hread : view.property v key with
  | error reason => exact yields_pure _
  | ok found =>
    cases found with
    | none => exact yields_pure _
    | some c => exact (h c (hkey c hread)).map some

theorem Shows.readAll (h : Shows view I visit shown v) {keys : List String}
    (hkeys : ∀ key ∈ keys, Reads view v key) :
    Yields I (view.readAll visit v keys) (view.readAll (m := Id) shown v keys).run := by
  induction keys with
  | nil => exact yields_pure _
  | cons key keys ih =>
    obtain ⟨hkey, hrest⟩ := List.forall_mem_cons.mp hkeys
    have hslot : Yields I (view.readSlot visit v key) (view.readSlot (m := Id) shown v key).run :=
      (h.readSlot? hkey).bind (yields_pure _)
    exact hslot.bind ((ih hrest).bind (yields_pure _))

theorem Shows.readPresent (h : Shows view I visit shown v) {keys : List String}
    (hkeys : ∀ key ∈ keys, Reads view v key) :
    Yields I (view.readPresent visit v keys) (view.readPresent (m := Id) shown v keys).run := by
  induction keys with
  | nil => exact yields_pure _
  | cons key keys ih =>
    obtain ⟨hkey, hrest⟩ := List.forall_mem_cons.mp hkeys
    exact (h.readSlot? hkey).bind ((ih hrest).bind (yields_pure _))

theorem Shows.plainProps (h : Shows view I visit shown v) (hkind : view.kind v = .object) :
    Yields I (view.plainProps visit v) (view.plainProps (m := Id) shown v).run :=
  (h.readAll (reads_own hkind)).bind
    (.ite (fun _ => h.readAll (reads_inherited hkind)) fun _ => yields_pure _)

theorem Shows.withPrototype (h : Shows view I visit shown v) (hkind : view.kind v = .object)
    (props : List (String × Snapshot)) :
    Yields I (view.withPrototype visit v props)
      (view.withPrototype (m := Id) shown v props).run := by
  unfold Inspectable.withPrototype
  cases hp : view.prototype? v with
  | none => exact yields_pure _
  | some p =>
    refine (h p (.prototype hkind hp)).bind ?_
    dsimp only [bind, Id.run]
    cases (shown p).props? with
    | none => exact yields_pure _
    | some props => exact .ite (fun _ => yields_pure _) fun _ => yields_pure _

theorem Shows.curatedProps (h : Shows view I visit shown v) (hkind : view.kind v = .object) :
    Yields I (view.curatedProps visit v) (view.curatedProps (m := Id) shown v).run := by
  unfold Inspectable.curatedProps
  cases hkeys : AudioProperties.find? (view.objectName v) with
  | none => exact yields_pure _
  | some keys => exact h.readPresent (reads_curated hkind hkeys)

theorem Shows.visitObject (h : Shows view I visit shown v) (hkind : view.kind v = .object) :
    Yields I (view.visitObject visit v) (view.visitObject (m := Id) shown v).run :=
  (h.curatedProps hkind).bind (.ite
    (fun _ => (h.plainProps hkind).bind ((h.withPrototype hkind _).bind (yields_pure _)))
    fun _ => yields_pure _)

theorem Shows.visitContent (h : Shows view I visit shown v)
    (hleaf : (view.kind v).leaf? = none) :
    Yields I (view.visitContent visit v) (view.visitContent (m := Id) shown v).run := by
  unfold Inspectable.visitContent
  rcases leaf?_eq_none hleaf with ⟨length, hkind⟩ | hkind
  · rw [hkind]
    exact (h.readAll (reads_item hkind)).bind (yields_pure _)
  · rw [hkind]
    exact h.visitObject hkind

end Content

/-! ## The stack -/

/-- States that satisfy `I p` have the stack `p`. -/
structure Stacked (σ : Type) [MonadStateOf (List V) (StateM σ)] (I : List V → σ → Prop) :
    Prop where
  get : ∀ p, Yields (I p) (get : StateM σ (List V)) p
  modify : ∀ (f : List V → List V) p s, I p s → I (f p) ((modify f : StateM σ PUnit).run s).2

theorem stacked_list : Stacked (List V) fun p s => s = p where
  get := by
    rintro p _ rfl
    exact ⟨rfl, rfl⟩
  modify := by
    rintro f p _ rfl
    rfl

/-- `v` is on the path. -/
def onPath (path : List V) (v : V) : Bool := path.any (view.sameReference · v)

/-- The snapshot of a value inside of the values of a path, with `levels` levels left. -/
def tree : (levels : Nat) → (path : List V) → V → Snapshot
  | 0, _, _ => .maxDepth
  | levels + 1, path, v =>
    match (view.kind v).leaf? with
    | some shown => shown
    | none =>
      if view.onPath path v then .circular (view.objectName v)
      else (view.visitContent (m := Id) (tree levels (v :: path)) v).run

variable {view} {σ : Type} [MonadStateOf (List V) (StateM σ)] {I : List V → σ → Prop}

/-- What is entered at the stack `p` is visited at the stack with it on top. -/
theorem Stacked.enter (hI : Stacked σ I) {p : List V} {v : V} {body : StateM σ Snapshot}
    {shown : Snapshot} (h : Yields (I (v :: p)) body shown) :
    Yields (I p) (view.enter v body)
      (if view.onPath p v then .circular (view.objectName v) else shown) := by
  refine (hI.get p).bind (Yields.ite (a := pure _) (b := pure _) (fun _ => yields_pure _)
    fun _ => ?_)
  intro s hs
  obtain ⟨hshown, hbody⟩ := h _ (hI.modify (v :: ·) p s hs)
  exact ⟨hshown, hI.modify List.tail (v :: p) _ hbody⟩

theorem Stacked.visitInside (hI : Stacked σ I) {visit : V → StateM σ Snapshot} {levels : Nat}
    {p : List V} {v : V}
    (h : ∀ c, view.Child v c → Yields (I (v :: p)) (visit c) (view.tree levels (v :: p) c)) :
    Yields (I p) (view.visitInside visit v) (view.tree (levels + 1) p v) := by
  unfold Inspectable.visitInside Inspectable.tree
  cases hleaf : (view.kind v).leaf? with
  | some shown => exact yields_pure _
  | none => exact hI.enter (Shows.visitContent h hleaf)

/-- A visit shows the tree of its value and leaves the stack as it was. -/
theorem yields_visit (levels : Nat) (p : List V) (v : V) :
    Yields (· = p) (view.visit levels v) (view.tree levels p v) := by
  induction levels generalizing p v with
  | zero => exact yields_pure _
  | succ levels ih => exact stacked_list.visitInside fun c _ => ih (v :: p) c

theorem run_visit (levels : Nat) (p : List V) (v : V) :
    (view.visit levels v).run p = (view.tree levels p v, p) := by
  have hvisit : Yields (· = p) (view.visit levels v) (view.tree levels p v) :=
    yields_visit levels p v
  obtain ⟨hshown, hstack⟩ := hvisit p rfl
  exact Prod.ext hshown hstack

theorem inspect_eq_tree (v : V) : view.inspect v = view.tree (maxDepth + 1) [] v := by
  rw [inspect, run_visit]

end SnippetRunner.Inspectable
