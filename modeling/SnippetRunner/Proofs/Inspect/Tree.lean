import Mathlib.Logic.Relation
import SnippetRunner.Heap.Inspect
import SnippetRunner.Proofs.Inspect.Stack
import SnippetRunner.Proofs.Snapshot.Nodes

/-
  What stands in the tree of a value. The tree of an array or object holds the trees of what its
  properties, items and prototype hold, and a few markers (`Held`, `visitContent_cases`). From
  this follows by induction on the levels what holds of every node (`everywhere_tree`).
-/
namespace SnippetRunner

namespace Inspectable

variable {V : Type} {view : Inspectable V}

/-! ## The contents of one value -/

/-- What may stand in the contents of `v`, where `shown` gives the trees of what `v` holds. A
prototype stands there under the name of its type. -/
inductive Held (view : Inspectable V) (shown : V → Snapshot) (v : V) : Snapshot → Prop
  | child {c : V} (h : view.Child v c) : Held view shown v (shown c)
  | prototype {c : V} {name : String} {props : List (String × Snapshot)} (h : view.Child v c)
      (hshown : shown c = .object name props) (name' : String) :
      Held view shown v (.object name' props)
  | undefined : Held view shown v .undefined
  | failed (reason : String) : Held view shown v (.unserializable reason)
  | truncated {length count : Nat} (h : view.kind v = .array length) (hcount : count ≤ length) :
      Held view shown v (.truncated count)

section Content

variable {shown : V → Snapshot} {v : V}

theorem held_readSlot? {key : String} {s : Snapshot} (hkey : Reads view v key)
    (h : (view.readSlot? (m := Id) shown v key).run = some s) : Held view shown v s := by
  unfold readSlot? at h
  split at h
  · next c hread =>
    obtain rfl : shown c = s := Option.some.inj h
    exact .child (hkey c hread)
  · cases h
  · next reason hread =>
    obtain rfl : Snapshot.unserializable reason = s := Option.some.inj h
    exact .failed reason

theorem held_readSlot {key : String} (hkey : Reads view v key) :
    Held view shown v (view.readSlot (m := Id) shown v key).run := by
  have hrun : (view.readSlot (m := Id) shown v key).run =
      (view.readSlot? (m := Id) shown v key).run.getD .undefined := rfl
  rw [hrun]
  cases hread : (view.readSlot? (m := Id) shown v key).run with
  | none => exact .undefined
  | some s => exact held_readSlot? hkey hread

theorem keys_readAll (keys : List String) :
    Fields.keys (view.readAll (m := Id) shown v keys).run = keys := by
  induction keys with
  | nil => rfl
  | cons key keys ih => exact congrArg (key :: ·) ih

theorem held_readAll {keys : List String} {entry : String × Snapshot}
    (hkeys : ∀ key ∈ keys, Reads view v key)
    (h : entry ∈ (view.readAll (m := Id) shown v keys).run) : Held view shown v entry.2 := by
  induction keys with
  | nil => cases h
  | cons key keys ih =>
    obtain ⟨hkey, hrest⟩ := List.forall_mem_cons.mp hkeys
    rcases List.mem_cons.mp h with rfl | h
    · exact held_readSlot hkey
    · exact ih hrest h

theorem run_readPresent_cons (key : String) (keys : List String) :
    (view.readPresent (m := Id) shown v (key :: keys)).run =
      ((view.readSlot? (m := Id) shown v key).run.map fun value => (key, value)).toList ++
        (view.readPresent (m := Id) shown v keys).run := rfl

theorem keys_readPresent (keys : List String) :
    (Fields.keys (view.readPresent (m := Id) shown v keys).run).Sublist keys := by
  induction keys with
  | nil => exact List.Sublist.refl _
  | cons key keys ih =>
    rw [run_readPresent_cons]
    cases (view.readSlot? (m := Id) shown v key).run with
    | none => exact ih.cons _
    | some s => exact ih.cons_cons _

theorem held_readPresent {keys : List String} {entry : String × Snapshot}
    (hkeys : ∀ key ∈ keys, Reads view v key)
    (h : entry ∈ (view.readPresent (m := Id) shown v keys).run) : Held view shown v entry.2 := by
  induction keys with
  | nil => cases h
  | cons key keys ih =>
    obtain ⟨hkey, hrest⟩ := List.forall_mem_cons.mp hkeys
    rcases List.mem_append.mp h with h | h
    · obtain ⟨s, hs, rfl⟩ := Option.map_eq_some_iff.mp (Option.mem_toList.mp h)
      exact held_readSlot? hkey hs
    · exact ih hrest h

/-- Properties with distinct keys that hold what may stand in the contents of `v`. -/
structure HeldProps (view : Inspectable V) (shown : V → Snapshot) (v : V)
    (props : List (String × Snapshot)) : Prop where
  nodup : (Fields.keys props).Nodup
  held : ∀ entry ∈ props, Held view shown v entry.2

theorem run_plainProps :
    (view.plainProps (m := Id) shown v).run =
      if (view.readAll (m := Id) shown v (Fields.firstOccurrences (view.ownKeys v))).run.isEmpty
      then (view.readAll (m := Id) shown v (Fields.firstOccurrences (view.inheritedKeys v))).run
      else (view.readAll (m := Id) shown v (Fields.firstOccurrences (view.ownKeys v))).run := by
  unfold plainProps
  dsimp only [bind, Id.run]
  split <;> rfl

theorem heldProps_plainProps (hkind : view.kind v = .object) :
    HeldProps view shown v (view.plainProps (m := Id) shown v).run := by
  have hread {keys : List String}
      (hkeys : ∀ key ∈ Fields.firstOccurrences keys, Reads view v key) :
      HeldProps view shown v (view.readAll (m := Id) shown v (Fields.firstOccurrences keys)).run :=
    ⟨by rw [keys_readAll]; exact Fields.nodup_firstOccurrences keys, fun _ => held_readAll hkeys⟩
  rw [run_plainProps]
  split
  · exact hread (reads_inherited hkind)
  · exact hread (reads_own hkind)

theorem run_withPrototype (props : List (String × Snapshot)) :
    (view.withPrototype (m := Id) shown v props).run =
      match view.prototype? v with
      | none => props
      | some p =>
        match (shown p).props? with
        | some inner =>
          if props.length < inner.length then
            Fields.set props prototypeKey (.object (view.objectName p) inner)
          else props
        | none => props := by
  unfold withPrototype
  cases view.prototype? v with
  | none => rfl
  | some p =>
    dsimp only [bind, Id.run]
    cases (shown p).props? with
    | none => rfl
    | some inner =>
      dsimp only
      split <;> rfl

theorem HeldProps.withPrototype {props : List (String × Snapshot)}
    (h : HeldProps view shown v props) (hkind : view.kind v = .object) :
    HeldProps view shown v (view.withPrototype (m := Id) shown v props).run := by
  rw [run_withPrototype]
  cases hp : view.prototype? v with
  | none => exact h
  | some p =>
    dsimp only
    cases hprops : (shown p).props? with
    | none => exact h
    | some inner =>
      obtain ⟨name, hshown⟩ := Snapshot.props?_eq_some hprops
      dsimp only
      split
      · refine ⟨Fields.nodup_keys_set _ _ h.nodup, fun entry hentry => ?_⟩
        rcases Fields.mem_set hentry with hentry | rfl
        · exact h.held entry hentry
        · exact .prototype (.prototype hkind hp) hshown _
      · exact h

theorem heldProps_curatedProps (hkind : view.kind v = .object) :
    HeldProps view shown v (view.curatedProps (m := Id) shown v).run := by
  unfold Inspectable.curatedProps
  cases hkeys : AudioProperties.find? (view.objectName v) with
  | none => exact ⟨List.nodup_nil, fun _ h => nomatch h⟩
  | some keys =>
    exact ⟨(keys_readPresent _).nodup (Fields.nodup_firstOccurrences keys),
      fun _ => held_readPresent (reads_curated hkind hkeys)⟩

theorem run_visitObject :
    (view.visitObject (m := Id) shown v).run = .object (view.objectName v)
      (if (view.curatedProps (m := Id) shown v).run.isEmpty then
        (view.withPrototype (m := Id) shown v (view.plainProps (m := Id) shown v).run).run
      else (view.curatedProps (m := Id) shown v).run) := by
  unfold visitObject
  dsimp only [bind, Id.run]
  split <;> rfl

/-- The contents of `v` are those of an array with what `v` holds as items, or an object with it
as properties. -/
theorem visitContent_cases (shown : V → Snapshot) (hleaf : (view.kind v).leaf? = none) :
    (∃ length items, (view.visitContent (m := Id) shown v).run = .array length items ∧
      view.kind v = .array length ∧ ∀ s ∈ items, Held view shown v s) ∨
    (∃ name props, (view.visitContent (m := Id) shown v).run = .object name props ∧
      HeldProps view shown v props) := by
  unfold visitContent
  rcases leaf?_eq_none hleaf with ⟨length, hkind⟩ | hkind
  · rw [hkind]
    refine Or.inl ⟨length, _, rfl, rfl, fun s hs => ?_⟩
    rcases List.mem_append.mp hs with hs | hs
    · obtain ⟨entry, hentry, rfl⟩ := List.mem_map.mp hs
      exact held_readAll (reads_item hkind) hentry
    · split at hs
      · obtain rfl := List.mem_singleton.mp hs
        exact .truncated hkind (Nat.sub_le ..)
      · cases hs
  · rw [hkind]
    right
    refine ⟨_, _, run_visitObject, ?_⟩
    split
    · exact (heldProps_plainProps hkind).withPrototype hkind
    · exact heldProps_curatedProps hkind

end Content

/-! ## All levels -/

theorem tree_succ_of_leaf {levels : Nat} {p : List V} {v : V} {s : Snapshot}
    (h : (view.kind v).leaf? = some s) : view.tree (levels + 1) p v = s := by
  rw [tree, h]

theorem tree_succ_of_onPath {levels : Nat} {p : List V} {v : V} (h : (view.kind v).leaf? = none)
    (hon : view.onPath p v = true) :
    view.tree (levels + 1) p v = .circular (view.objectName v) := by
  rw [tree, h, hon]
  rfl

theorem tree_succ_of_not_onPath {levels : Nat} {p : List V} {v : V}
    (h : (view.kind v).leaf? = none) (hon : view.onPath p v = false) :
    view.tree (levels + 1) p v =
      (view.visitContent (m := Id) (view.tree levels (v :: p)) v).run := by
  rw [tree, h, hon]
  rfl

/-- A value that is not looked into is shown neither with content nor as a reference. -/
theorem ne_of_leaf? {kind : ValueKind} {s : Snapshot} (h : kind.leaf? = some s) :
    (∀ length items, s ≠ .array length items) ∧ (∀ name props, s ≠ .object name props) ∧
      ∀ name, s ≠ .circular name := by
  cases kind with
  | array _ => cases h
  | object => cases h
  | number d =>
    obtain rfl := Option.some.inj h
    unfold Snapshot.ofDouble
    split <;> exact ⟨nofun, nofun, nofun⟩
  | _ =>
    obtain rfl := Option.some.inj h
    exact ⟨nofun, nofun, nofun⟩

theorem nodes_of_leaf? {kind : ValueKind} {s : Snapshot} (h : kind.leaf? = some s) :
    s.nodes = [s] := by
  obtain ⟨harray, hobject, -⟩ := ne_of_leaf? h
  cases s with
  | array length items => exact absurd rfl (harray length items)
  | object name props => exact absurd rfl (hobject name props)
  | _ => rfl

/-- A property that the nodes have which the inspector makes from nothing but its reads. -/
structure Composes (P : Snapshot → Prop) : Prop where
  undefined : P .undefined
  string : ∀ s, P (.string s)
  maxDepth : P .maxDepth
  object : ∀ name props, (Fields.keys props).Nodup → P (.object name props)
  renamed : ∀ name name' props, P (.object name props) → P (.object name' props)

/-- The property holds of the array that `v` is shown as, and of the marker in it. -/
structure ComposesArray (view : Inspectable V) (P : Snapshot → Prop) (v : V) : Prop where
  array : ∀ length items, view.kind v = .array length → P (.array length items)
  truncated : ∀ length count, view.kind v = .array length → count ≤ length → P (.truncated count)

theorem Composes.everywhere_held {P : Snapshot → Prop} (hP : Composes P) {shown : V → Snapshot}
    {v : V} (hv : ComposesArray view P v)
    (h : ∀ c, view.Child v c → (shown c).Everywhere P) {s : Snapshot}
    (hs : Held view shown v s) : s.Everywhere P := by
  cases hs with
  | child hc => exact h _ hc
  | prototype hc hshown name' =>
    have hprops := h _ hc
    rw [hshown, Snapshot.everywhere_object] at hprops
    exact Snapshot.everywhere_object.mpr ⟨hP.renamed _ _ _ hprops.1, hprops.2⟩
  | undefined => exact (Snapshot.everywhere_leaf rfl).mpr hP.undefined
  | failed reason => exact (Snapshot.everywhere_leaf rfl).mpr (hP.string _)
  | truncated hkind hcount =>
    exact (Snapshot.everywhere_leaf rfl).mpr (hv.truncated _ _ hkind hcount)

theorem Composes.everywhere_content {P : Snapshot → Prop} (hP : Composes P)
    {shown : V → Snapshot} {v : V} (hv : ComposesArray view P v)
    (hleaf : (view.kind v).leaf? = none)
    (h : ∀ c, view.Child v c → (shown c).Everywhere P) :
    (view.visitContent (m := Id) shown v).run.Everywhere P := by
  rcases visitContent_cases shown hleaf with
    ⟨length, items, e, hkind, hitems⟩ | ⟨name, props, e, hprops⟩
  · rw [e, Snapshot.everywhere_array]
    exact ⟨hv.array _ _ hkind, fun s hs => hP.everywhere_held hv h (hitems s hs)⟩
  · rw [e, Snapshot.everywhere_object]
    exact ⟨hP.object _ _ hprops.nodup,
      fun entry he => hP.everywhere_held hv h (hprops.held entry he)⟩

/-- `Q` holds of every value that is met with, at its path, and gives its own node the property. -/
structure Invariant (view : Inspectable V) (P : Snapshot → Prop) (Q : List V → V → Prop) :
    Prop where
  composes : Composes P
  step : ∀ {p v c}, Q p v → view.Child v c → Q (v :: p) c
  leaf : ∀ {p v s}, Q p v → (view.kind v).leaf? = some s → P s
  array : ∀ {p v}, Q p v → ComposesArray view P v
  circular : ∀ {p v}, Q p v → (view.kind v).leaf? = none → view.onPath p v = true →
    P (.circular (view.objectName v))

/-- What an invariant gives every value met with, it gives every node of its tree. -/
theorem Invariant.everywhere_tree {P : Snapshot → Prop} {Q : List V → V → Prop}
    (h : Invariant view P Q) {levels : Nat} {p : List V} {v : V} (hv : Q p v) :
    (view.tree levels p v).Everywhere P := by
  induction levels generalizing p v with
  | zero => exact (Snapshot.everywhere_leaf rfl).mpr h.composes.maxDepth
  | succ levels ih =>
    cases hleaf : (view.kind v).leaf? with
    | some s =>
      rw [tree_succ_of_leaf hleaf]
      exact (Snapshot.everywhere_leaf (nodes_of_leaf? hleaf)).mpr (h.leaf hv hleaf)
    | none =>
      cases hon : view.onPath p v with
      | true =>
        rw [tree_succ_of_onPath hleaf hon]
        exact (Snapshot.everywhere_leaf rfl).mpr (h.circular hv hleaf hon)
      | false =>
        rw [tree_succ_of_not_onPath hleaf hon]
        exact h.composes.everywhere_content (h.array hv) hleaf fun c hc => ih (h.step hv hc)

/-! ## Height -/

theorem height_of_leaf? {kind : ValueKind} {s : Snapshot} (h : kind.leaf? = some s) :
    s.height = 0 := by
  obtain ⟨harray, hobject, -⟩ := ne_of_leaf? h
  cases s with
  | array length items => exact absurd rfl (harray length items)
  | object name props => exact absurd rfl (hobject name props)
  | _ => rfl

theorem Held.height_le {shown : V → Snapshot} {v : V} {s : Snapshot}
    (hs : Held view shown v s) {n : Nat} (h : ∀ c, view.Child v c → (shown c).height ≤ n) :
    s.height ≤ n := by
  cases hs with
  | child hc => exact h _ hc
  | prototype hc hshown name' =>
    have hheight := h _ hc
    rw [hshown] at hheight
    exact hheight
  | undefined => exact Nat.zero_le n
  | failed reason => exact Nat.zero_le n
  | truncated _ _ => exact Nat.zero_le n

/-- A tree has at most one array or object a level. -/
theorem height_tree_le (levels : Nat) (p : List V) (v : V) :
    (view.tree levels p v).height ≤ levels := by
  induction levels generalizing p v with
  | zero => exact Nat.le_refl 0
  | succ levels ih =>
    cases hleaf : (view.kind v).leaf? with
    | some s =>
      rw [tree_succ_of_leaf hleaf, height_of_leaf? hleaf]
      exact Nat.zero_le _
    | none =>
      cases hon : view.onPath p v with
      | true =>
        rw [tree_succ_of_onPath hleaf hon]
        exact Nat.zero_le _
      | false =>
        have hchild (c : V) (_ : view.Child v c) := ih (v :: p) c
        rw [tree_succ_of_not_onPath hleaf hon]
        rcases visitContent_cases (view.tree levels (v :: p)) hleaf with
          ⟨length, items, e, -, hitems⟩ | ⟨name, props, e, hprops⟩
        · rw [e, Snapshot.height_array_le]
          exact fun s hs => (hitems s hs).height_le hchild
        · rw [e, Snapshot.height_object_le]
          exact fun entry he => (hprops.held entry he).height_le hchild

end Inspectable

/-! ## Heaps -/

namespace Heap

/-- The values that the objects of the heap hold. -/
def values (h : Heap) : List Value :=
  h.flatMap fun o => (o.entries ++ o.hidden).map Prod.snd ++ o.prototype.toList

theorem mem_of_object? {h : Heap} {v : Value} {o : HeapObject} (ho : h.object? v = some o) :
    o ∈ h := by
  cases v with
  | ref place => exact List.mem_of_getElem? ho
  | _ => cases ho

theorem mem_values_of_property {h : Heap} {v c : Value} {key : String}
    (hc : h.property v key = .ok (some c)) : c ∈ h.values := by
  unfold property at hc
  split at hc
  · cases hc
  · injection hc with hc
    obtain ⟨w, -, hw⟩ := List.exists_of_findSome?_eq_some hc
    obtain ⟨o, ho, hread⟩ := Option.bind_eq_some_iff.mp hw
    obtain ⟨entry, hentry, rfl⟩ := Option.map_eq_some_iff.mp hread
    refine List.mem_flatMap.mpr ⟨o, mem_of_object? ho, List.mem_append_left _ ?_⟩
    exact List.mem_map_of_mem (List.mem_of_find?_eq_some hentry)

theorem mem_values_of_prototype? {h : Heap} {v c : Value} (hc : h.prototype? v = some c) :
    c ∈ h.values := by
  obtain ⟨o, ho, hproto⟩ := Option.bind_eq_some_iff.mp hc
  refine List.mem_flatMap.mpr ⟨o, mem_of_object? ho, List.mem_append_right _ ?_⟩
  exact Option.mem_toList.mpr hproto

/-- What is met inside of a value is held by the heap. -/
theorem mem_values_of_child {h : Heap} {v c : Value} (hc : h.view.Child v c) : c ∈ h.values := by
  cases hc with
  | item _ _ hread => exact mem_values_of_property hread
  | property _ _ hread => exact mem_values_of_property hread
  | prototype _ hproto => exact mem_values_of_prototype? hproto

theorem mem_values_of_reachable {h : Heap} {root v : Value}
    (hv : Relation.ReflTransGen h.view.Child root v) : v ∈ root :: h.values := by
  rcases Relation.ReflTransGen.cases_tail hv with rfl | ⟨_, -, hc⟩
  · exact List.mem_cons_self ..
  · exact List.mem_cons_of_mem _ (mem_values_of_child hc)

end Heap

end SnippetRunner
