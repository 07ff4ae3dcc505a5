import SnippetRunner.Proofs.Inspect.Cycles
import SnippetRunner.Proofs.Inspect.Prototypes

/-
  Levels. A node of a snapshot stands as deep as the visit that it comes from (`stems_of_nodeAt`):
  what an array or object shows in its slots are the snapshots of what it holds, one level down
  (`expanded_array`, `expanded_object`). So nothing stands deeper than the first level that is not
  looked into, and there every value is cut off.
-/
namespace SnippetRunner

/-- `t` stands in the snapshot at the level, which is 0 for the snapshot itself. -/
inductive Snapshot.NodeAt : (level : Nat) → (s t : Snapshot) → Prop
  | self (s : Snapshot) : NodeAt 0 s s
  | item {level length : Nat} {items : List Snapshot} {s t : Snapshot} (hs : s ∈ items)
      (h : NodeAt level s t) : NodeAt (level + 1) (.array length items) t
  | prop {level : Nat} {name : String} {props : List (String × Snapshot)}
      {entry : String × Snapshot} {t : Snapshot} (hentry : entry ∈ props)
      (h : NodeAt level entry.2 t) : NodeAt (level + 1) (.object name props) t

namespace Inspectable

open Snapshot

variable {V : Type} (view : Inspectable V)

/-- The visit of a value at a depth, which goes down as long as it is not too deep. -/
def visitAt (depth : Nat) (v : V) : StateM (List V) Snapshot :=
  if maxDepth < depth then return .maxDepth
  else view.visitInside (visitAt (depth + 1)) v
termination_by maxDepth + 1 - depth

theorem visitAt_eq (depth : Nat) : view.visitAt depth = view.visit (maxDepth + 1 - depth) := by
  generalize hlevels : maxDepth + 1 - depth = levels
  induction levels generalizing depth with
  | zero =>
    funext v
    rw [visitAt, if_pos (by omega)]
    rfl
  | succ levels ih =>
    funext v
    rw [visitAt, if_neg (by omega)]
    rw [ih (depth + 1) (by omega)]
    rfl

/-- A visit at the depth of its path shows the snapshot inside of the path. -/
theorem run_visitAt (path : List V) (v : V) :
    (view.visitAt path.length v).run path = (view.subtree path v, path) := by
  rw [visitAt_eq, run_visit]
  rfl

/-- What the property of a key of `v` shows inside of a path. -/
def slot (path : List V) (v : V) (key : String) : Snapshot :=
  match view.property v key with
  | .ok (some c) => view.subtree (v :: path) c
  | .ok none => .undefined
  | .error reason => .unserializable reason

/-- What an object shows: the property of a key, or the prototype. -/
inductive Entry (view : Inspectable V) (path : List V) (v : V) : String × Snapshot → Prop
  | property {key : String} (hkey : key ∈ view.objectKeys v) :
      Entry view path v (key, view.slot path v key)
  | prototype {p : V} (h : view.prototype? v = some p) :
      Entry view path v (prototypeKey, view.subtree (v :: path) p)

/-! ## The slots of one value -/

section Slots

variable {view} {path : List V} {v : V}

theorem readSlot?_eq (key : String) :
    (view.readSlot? (m := Id) (view.subtree (v :: path)) v key).run =
      match view.property v key with
      | .ok none => none
      | _ => some (view.slot path v key) := by
  unfold readSlot? slot
  cases view.property v key with
  | error reason => rfl
  | ok found => cases found <;> rfl

theorem readSlot_eq (key : String) :
    (view.readSlot (m := Id) (view.subtree (v :: path)) v key).run = view.slot path v key := by
  have hrun : (view.readSlot (m := Id) (view.subtree (v :: path)) v key).run =
      (view.readSlot? (m := Id) (view.subtree (v :: path)) v key).run.getD .undefined := rfl
  rw [hrun, readSlot?_eq]
  unfold slot
  cases view.property v key with
  | error reason => rfl
  | ok found => cases found <;> rfl

theorem readAll_eq (keys : List String) :
    (view.readAll (m := Id) (view.subtree (v :: path)) v keys).run =
      keys.map fun key => (key, view.slot path v key) := by
  induction keys with
  | nil => rfl
  | cons key keys ih =>
    have hrun : (view.readAll (m := Id) (view.subtree (v :: path)) v (key :: keys)).run =
        (key, (view.readSlot (m := Id) (view.subtree (v :: path)) v key).run) ::
          (view.readAll (m := Id) (view.subtree (v :: path)) v keys).run := rfl
    rw [hrun, readSlot_eq, ih, List.map_cons]

theorem mem_readPresent {keys : List String} {entry : String × Snapshot}
    (h : entry ∈ (view.readPresent (m := Id) (view.subtree (v :: path)) v keys).run) :
    ∃ key ∈ keys, entry = (key, view.slot path v key) := by
  induction keys with
  | nil => cases h
  | cons key keys ih =>
    rcases List.mem_append.mp h with h | h
    · obtain ⟨s, hs, rfl⟩ := Option.map_eq_some_iff.mp (Option.mem_toList.mp h)
      replace hs := (readSlot?_eq key).symm.trans hs
      have hslot : view.slot path v key = s := by
        split at hs
        · cases hs
        · exact Option.some.inj hs
      exact ⟨key, List.mem_cons_self .., by rw [hslot]⟩
    · obtain ⟨other, hother, rfl⟩ := ih h
      exact ⟨other, List.mem_cons_of_mem _ hother, rfl⟩

/-- An array shows its first items, and how many it has left out. -/
theorem expanded_array {length : Nat} (hkind : view.kind v = .array length) :
    view.expanded path v = .array length
      ((List.range (min length maxItems)).map (fun index => view.slot path v (Nat.repr index)) ++
        if maxItems < length then [.truncated (length - maxItems)] else []) := by
  unfold expanded visitContent
  rw [hkind]
  show Snapshot.array length ((view.readAll (m := Id) _ v _).run.map Prod.snd ++ _) = _
  rw [readAll_eq, List.map_map, List.map_map]
  rfl

theorem entry_plainProps {entry : String × Snapshot}
    (h : entry ∈ (view.plainProps (m := Id) (view.subtree (v :: path)) v).run) :
    Entry view path v entry := by
  have hread {keys : List String} (hkeys : keys ⊆ view.objectKeys v)
      (h : entry ∈ (view.readAll (m := Id) (view.subtree (v :: path)) v
        (Fields.firstOccurrences keys)).run) : Entry view path v entry := by
    rw [readAll_eq] at h
    obtain ⟨key, hkey, rfl⟩ := List.mem_map.mp h
    exact .property (hkeys (Fields.mem_firstOccurrences.mp hkey))
  rw [run_plainProps] at h
  split at h
  · exact hread (fun key hkey => by simp [objectKeys, hkey]) h
  · exact hread (fun key hkey => by simp [objectKeys, hkey]) h

/-- What an object shows: what an audio object does, or else its properties and its prototype. -/
theorem expanded_eq_object (hkind : view.kind v = .object) :
    view.expanded path v = .object (view.objectName v)
      (if (view.curatedProps (m := Id) (view.subtree (v :: path)) v).run.isEmpty then
        (view.withPrototype (m := Id) (view.subtree (v :: path)) v
          (view.plainProps (m := Id) (view.subtree (v :: path)) v).run).run
      else (view.curatedProps (m := Id) (view.subtree (v :: path)) v).run) := by
  unfold expanded visitContent
  rw [hkind]
  exact run_visitObject

/-- What has contents is shown by a visit that looks into its value. -/
theorem subtree_eq_expanded
    (h : (∃ length items, view.subtree path v = .array length items) ∨
      ∃ name props, view.subtree path v = .object name props) :
    path.length ≤ maxDepth ∧ view.IsContainer v ∧ view.subtree path v = view.expanded path v := by
  have hshape {s : Snapshot} (hs : view.subtree path v = s)
      (harray : ∀ length items, s ≠ .array length items)
      (hobject : ∀ name props, s ≠ .object name props) : False := by
    rcases h with ⟨length, items, h⟩ | ⟨name, props, h⟩
    · exact harray length items (hs.symm.trans h)
    · exact hobject name props (hs.symm.trans h)
  have hdepth : path.length ≤ maxDepth := by
    refine Nat.le_of_not_lt fun hdeep => ?_
    exact hshape (subtree_of_deep hdeep) (fun _ _ => by simp) fun _ _ => by simp
  cases hleaf : (view.kind v).leaf? with
  | some s =>
    obtain ⟨harray, hobject, -⟩ := ne_of_leaf? hleaf
    exact (hshape (subtree_of_leaf hdepth hleaf) harray hobject).elim
  | none =>
    cases hon : view.onPath path v with
    | true =>
      exact (hshape (subtree_of_onPath hdepth hleaf hon) (fun _ _ => by simp)
        fun _ _ => by simp).elim
    | false => exact ⟨hdepth, hleaf, subtree_of_not_onPath hdepth hleaf hon⟩

/-- Whatever is shown as an array is one, and shows its items. -/
theorem array_of_subtree {length : Nat} {items : List Snapshot}
    (h : view.subtree path v = .array length items) :
    path.length ≤ maxDepth ∧ view.kind v = .array length ∧
      items = (List.range (min length maxItems)).map
          (fun index => view.slot path v (Nat.repr index)) ++
        if maxItems < length then [.truncated (length - maxItems)] else [] := by
  obtain ⟨hdepth, hcontainer, hexpanded⟩ := subtree_eq_expanded (Or.inl ⟨length, items, h⟩)
  rw [h] at hexpanded
  rcases leaf?_eq_none hcontainer with ⟨length', hkind⟩ | hkind
  · rw [expanded_array hkind] at hexpanded
    obtain ⟨rfl, hitems⟩ := Snapshot.array.inj hexpanded
    exact ⟨hdepth, hkind, hitems⟩
  · rw [expanded_eq_object hkind] at hexpanded
    cases hexpanded

/-- Whatever is shown as an object is one, and has its name. -/
theorem kind_of_subtree {name : String} {props : List (String × Snapshot)}
    (h : view.subtree path v = .object name props) :
    view.kind v = .object ∧ name = view.objectName v := by
  obtain ⟨-, hcontainer, hexpanded⟩ := subtree_eq_expanded (Or.inr ⟨name, props, h⟩)
  rw [h] at hexpanded
  rcases leaf?_eq_none hcontainer with ⟨length, hkind⟩ | hkind
  · rw [expanded_array hkind] at hexpanded
    cases hexpanded
  · rw [expanded_eq_object hkind] at hexpanded
    exact ⟨hkind, (Snapshot.object.inj hexpanded).1⟩

theorem entry_withPrototype {props : List (String × Snapshot)}
    (hprops : ∀ entry ∈ props, Entry view path v entry) {entry : String × Snapshot}
    (h : entry ∈ (view.withPrototype (m := Id) (view.subtree (v :: path)) v props).run) :
    Entry view path v entry := by
  rw [run_withPrototype] at h
  cases hp : view.prototype? v with
  | none =>
    rw [hp] at h
    exact hprops entry h
  | some p =>
    rw [hp] at h
    dsimp only at h
    cases hshown : (view.subtree (v :: path) p).props? with
    | none =>
      rw [hshown] at h
      exact hprops entry h
    | some shown =>
      rw [hshown] at h
      dsimp only at h
      split at h
      · rcases Fields.mem_set h with h | rfl
        · exact hprops entry h
        · obtain ⟨name, hobject⟩ := props?_eq_some hshown
          rw [← (kind_of_subtree hobject).2, ← hobject]
          exact .prototype hp
      · exact hprops entry h

/-- An object shows nothing but its properties and its prototype. -/
theorem expanded_object (path : List V) (hkind : view.kind v = .object) :
    ∃ props, view.expanded path v = .object (view.objectName v) props ∧
      ∀ entry ∈ props, Entry view path v entry := by
  refine ⟨_, expanded_eq_object hkind, fun entry h => ?_⟩
  split at h
  · exact entry_withPrototype (fun _ => entry_plainProps) h
  · unfold curatedProps at h
    cases hkeys : AudioProperties.find? (view.objectName v) with
    | none =>
      rw [hkeys] at h
      cases h
    | some keys =>
      rw [hkeys] at h
      obtain ⟨key, hkey, rfl⟩ := mem_readPresent h
      refine .property ?_
      simp [objectKeys, hkeys, Fields.mem_firstOccurrences.mp hkey]

theorem entry_of_subtree {name : String} {props : List (String × Snapshot)}
    (h : view.subtree path v = .object name props) :
    path.length ≤ maxDepth ∧ view.kind v = .object ∧ ∀ entry ∈ props, Entry view path v entry := by
  obtain ⟨hdepth, -, hexpanded⟩ := subtree_eq_expanded (Or.inr ⟨name, props, h⟩)
  have hkind := (kind_of_subtree h).1
  obtain ⟨props', hprops', hentries⟩ := expanded_object path hkind
  rw [h, hprops'] at hexpanded
  obtain ⟨-, rfl⟩ := Snapshot.object.inj hexpanded
  exact ⟨hdepth, hkind, hentries⟩

end Slots

/-! ## Levels -/

/-- Where a node at a level comes from: it is shown by the visit of a value at this depth, or it
stands in a slot of a value visited one level higher, for a property that is absent or whose read
fails, or for the items that were left out. -/
inductive Stems (view : Inspectable V) (root : V) : (level : Nat) → Snapshot → Prop
  | visit {path : List V} {v : V} (hpath : IsPath view root path v) :
      Stems view root path.length (view.subtree path v)
  | absent {path : List V} {v : V} {key : String} (hpath : IsPath view root path v)
      (h : view.property v key = .ok none) : Stems view root (path.length + 1) .undefined
  | failed {path : List V} {v : V} {key reason : String} (hpath : IsPath view root path v)
      (h : view.property v key = .error reason) :
      Stems view root (path.length + 1) (.unserializable reason)
  | leftOut {path : List V} {v : V} {length : Nat} (hpath : IsPath view root path v)
      (hkind : view.kind v = .array length) (h : maxItems < length) :
      Stems view root (path.length + 1) (.truncated (length - maxItems))

section Levels

variable {view} {root : V} {path : List V} {v : V}

theorem leaf?_ne_maxDepth {kind : ValueKind} (h : kind.leaf? = some .maxDepth) : False := by
  cases kind with
  | number d =>
    replace h := Option.some.inj h
    unfold Snapshot.ofDouble at h
    split at h <;> cases h
  | _ => cases h

/-- Only a visit that is too deep shows that it is. -/
theorem subtree_eq_maxDepth_iff : view.subtree path v = .maxDepth ↔ maxDepth < path.length := by
  refine ⟨fun h => Nat.lt_of_not_le fun hdepth => ?_, subtree_of_deep⟩
  cases hleaf : (view.kind v).leaf? with
  | some s =>
    rw [subtree_of_leaf hdepth hleaf] at h
    rw [h] at hleaf
    exact leaf?_ne_maxDepth hleaf
  | none =>
    cases hon : view.onPath path v with
    | true =>
      rw [subtree_of_onPath hdepth hleaf hon] at h
      cases h
    | false =>
      rw [subtree_of_not_onPath hdepth hleaf hon] at h
      rcases leaf?_eq_none hleaf with ⟨length, hkind⟩ | hkind
      · rw [expanded_array hkind] at h
        cases h
      · rw [expanded_eq_object hkind] at h
        cases h

theorem nodeAt_leaf {level : Nat} {s t : Snapshot} (h : NodeAt level s t)
    (harray : ∀ length items, s ≠ .array length items)
    (hobject : ∀ name props, s ≠ .object name props) :
    level = 0 ∧ t = s := by
  cases h with
  | self => exact ⟨rfl, rfl⟩
  | item hs h => exact (harray _ _ rfl).elim
  | prop hentry h => exact (hobject _ _ rfl).elim

/-- What stands in a slot comes from a visit of what the property holds, or from the property. -/
theorem stems_of_slot {level : Nat} {key : String} {t : Snapshot} (hpath : IsPath view root path v)
    (hdepth : path.length ≤ maxDepth) (h : NodeAt level (view.slot path v key) t)
    (hchild : ∀ c, view.property v key = .ok (some c) →
      Stems view root (path.length + 1 + level) t ∧ path.length + 1 + level ≤ maxDepth + 1) :
    Stems view root (path.length + 1 + level) t ∧ path.length + 1 + level ≤ maxDepth + 1 := by
  unfold slot at h
  cases hread : view.property v key with
  | error reason =>
    rw [hread] at h
    obtain ⟨rfl, rfl⟩ := nodeAt_leaf h nofun nofun
    exact ⟨.failed hpath hread, by omega⟩
  | ok found =>
    cases found with
    | none =>
      rw [hread] at h
      obtain ⟨rfl, rfl⟩ := nodeAt_leaf h nofun nofun
      exact ⟨.absent hpath hread, by omega⟩
    | some c => exact hchild c hread

/-- Every node comes from a visit at its level, or from a slot of one above it. -/
theorem stems_of_nodeAt {level : Nat} {t : Snapshot} (hpath : IsPath view root path v)
    (hdepth : path.length ≤ maxDepth + 1) (h : NodeAt level (view.subtree path v) t) :
    Stems view root (path.length + level) t ∧ path.length + level ≤ maxDepth + 1 := by
  generalize hs : view.subtree path v = s at h
  induction h generalizing path v with
  | self s =>
    rw [← hs]
    exact ⟨.visit hpath, hdepth⟩
  | @item level length items s t hmem h ih =>
    obtain ⟨hdepth, hkind, rfl⟩ := array_of_subtree hs
    rw [show path.length + (level + 1) = path.length + 1 + level by omega]
    rcases List.mem_append.mp hmem with hmem | hmem
    · obtain ⟨index, hindex, rfl⟩ := List.mem_map.mp hmem
      refine stems_of_slot hpath hdepth h fun c hc => ?_
      have hchild : view.Child v c :=
        reads_item hkind (Nat.repr index) (List.mem_map_of_mem hindex) c hc
      refine @ih (v :: path) c (hpath.step hchild) (by rw [List.length_cons]; omega) ?_
      rw [slot, hc]
    · split at hmem
      · next hlength =>
        obtain rfl := List.mem_singleton.mp hmem
        obtain ⟨rfl, rfl⟩ := nodeAt_leaf h nofun nofun
        exact ⟨.leftOut hpath hkind hlength, by omega⟩
      · cases hmem
  | @prop level name props entry t hmem h ih =>
    obtain ⟨hdepth, hkind, hentries⟩ := entry_of_subtree hs
    rw [show path.length + (level + 1) = path.length + 1 + level by omega]
    cases hentries entry hmem with
    | @property key hkey =>
      refine stems_of_slot hpath hdepth h fun c hc => ?_
      refine @ih (v :: path) c (hpath.step (.property hkind hkey hc))
        (by rw [List.length_cons]; omega) ?_
      show _ = view.slot path v key
      rw [slot, hc]
    | @prototype p hp =>
      exact @ih (v :: path) p (hpath.step (.prototype hkind hp))
        (by rw [List.length_cons]; omega) rfl

/-- The nodes of the whole snapshot. -/
theorem Stems.of_inspect {level : Nat} {t : Snapshot} (h : NodeAt level (view.inspect root) t) :
    Stems view root level t ∧ level ≤ maxDepth + 1 := by
  have hroot : view.inspect root = view.subtree [] root := inspect_eq_tree root
  rw [hroot] at h
  have hstems := stems_of_nodeAt .root (Nat.zero_le _) h
  rwa [List.length_nil, Nat.zero_add] at hstems

/-- A node that is cut off for its depth comes from a visit that is too deep. -/
theorem Stems.of_maxDepth {level : Nat} (h : Stems view root level .maxDepth) :
    ∃ path v, IsPath view root path v ∧ path.length = level ∧ maxDepth < level := by
  generalize ht : Snapshot.maxDepth = t at h
  cases h with
  | @visit path v hpath => exact ⟨path, v, hpath, rfl, subtree_eq_maxDepth_iff.mp ht.symm⟩
  | _ => cases ht

theorem Stems.of_array {level length : Nat} {items : List Snapshot}
    (h : Stems view root level (.array length items)) :
    ∃ path v, IsPath view root path v ∧ path.length = level ∧ view.kind v = .array length ∧
      items = (List.range (min length maxItems)).map
          (fun index => view.slot path v (Nat.repr index)) ++
        if maxItems < length then [.truncated (length - maxItems)] else [] := by
  generalize ht : Snapshot.array length items = t at h
  cases h with
  | @visit path v hpath =>
    obtain ⟨-, hkind, hitems⟩ := array_of_subtree ht.symm
    exact ⟨path, v, hpath, rfl, hkind, hitems⟩
  | _ => cases ht

/-- Nothing is cut off where no path is longer than the depth that is looked into. -/
theorem ne_maxDepth_of_short (hshort : ∀ path v, IsPath view root path v → path.length ≤ maxDepth)
    {level : Nat} {t : Snapshot} (h : NodeAt level (view.inspect root) t) : t ≠ .maxDepth := by
  rintro rfl
  obtain ⟨path, v, hpath, rfl, hdeep⟩ := (Stems.of_inspect h).1.of_maxDepth
  exact Nat.not_lt.mpr (hshort path v hpath) hdeep

end Levels

/-- Inspection is bounded. The walk up the prototypes ends, and so does the visit of a value at
its depth, which takes nothing from the stack and shows what the value and its path determine. It
cuts the value off exactly at the first depth that is not looked into, and otherwise shows in each
entry of an object the visit of what the entry holds. Every node of the whole snapshot stands as
deep as the visit it comes from, and none deeper than the first depth that is not looked into; only
there is one cut off for its depth, hence none is where all paths are shorter. Every array node
comes from an array of its length, and has the visits of the first items and then a marker with
the number of the others, if there are any. -/
theorem inspect_bounded (view : Inspectable V) (hview : view.Grounded) (root : V) :
    (∀ v, view.Gathers [] (view.prototype? v) (view.inheritedKeys v)) ∧
      (view.visitAt 0 root).run [] = (view.inspect root, []) ∧
      (∀ path v, IsPath view root path v → path.length ≤ maxDepth + 1 →
        (view.visitAt path.length v).run path = (view.subtree path v, path) ∧
        (view.subtree path v = .maxDepth ↔ path.length = maxDepth + 1) ∧
        ∀ name props, view.subtree path v = .object name props →
          ∀ entry ∈ props, Entry view path v entry) ∧
      (∀ level t, NodeAt level (view.inspect root) t →
        level ≤ maxDepth + 1 ∧ Stems view root level t ∧
          (t = .maxDepth → level = maxDepth + 1)) ∧
      (∀ level length items, NodeAt level (view.inspect root) (.array length items) →
        ∃ path v, IsPath view root path v ∧ path.length = level ∧ view.kind v = .array length ∧
          items = (List.range (min length maxItems)).map
              (fun index => view.slot path v (Nat.repr index)) ++
            if maxItems < length then [.truncated (length - maxItems)] else []) ∧
      ((∀ path v, IsPath view root path v → path.length ≤ maxDepth) →
        ∀ level t, NodeAt level (view.inspect root) t → t ≠ .maxDepth) := by
  refine ⟨hview.gathers, ?whole, fun path v _ hdepth => ⟨run_visitAt view path v, ?cut, ?entries⟩,
    fun level t h => ⟨(Stems.of_inspect h).2, (Stems.of_inspect h).1, ?only⟩,
    fun level length items h => (Stems.of_inspect h).1.of_array,
    fun hshort level t => ne_maxDepth_of_short hshort⟩
  case whole =>
    rw [inspect_eq_tree root]
    exact run_visitAt view [] root
  case cut =>
    rw [subtree_eq_maxDepth_iff]
    omega
  case entries => exact fun name props h => (entry_of_subtree h).2.2
  case only =>
    rintro rfl
    obtain ⟨hstems, hlevel⟩ := Stems.of_inspect h
    obtain ⟨path, v, -, -, hdeep⟩ := hstems.of_maxDepth
    omega

/-- Twelve objects that hold each other in a ring, and their prototype, which holds the first. -/
def ring : Heap :=
  (List.range 12).map (fun place =>
    { HeapObject.plain "Link" [("next", .ref ((place + 1) % 12))] with
      prototype := some (.ref 12) }) ++ [.plain "Base" [("first", .ref 0)]]

theorem ring_prototype? (v : Value) :
    ring.view.prototype? v = none ∨ ring.view.prototype? v = some (.ref 12) := by
  cases hproto : ring.view.prototype? v with
  | none => exact .inl rfl
  | some p =>
    obtain ⟨o, ho, hp⟩ := Option.bind_eq_some_iff.mp hproto
    have hmem : o ∈ ring := by
      cases v with
      | ref place => exact List.mem_of_getElem? ho
      | _ => cases ho
    rcases List.mem_append.mp hmem with h | h
    · obtain ⟨place, -, rfl⟩ := List.mem_map.mp h
      exact .inr (congrArg some (Option.some.inj hp).symm)
    · obtain rfl := List.mem_singleton.mp h
      cases hp

theorem ring_chainsEnd : ring.view.ChainsEnd := by
  intro v
  rcases ring_prototype? v with h | h
  · rw [h]
    exact ⟨[], .done⟩
  · rw [h]
    exact ⟨[.ref 12], .next .done⟩

theorem inspect_bounded_ring :
    ring.view.Grounded ∧
      ∀ level t, NodeAt level (ring.view.inspect (.ref 0)) t →
        level ≤ maxDepth + 1 ∧ Stems ring.view (.ref 0) level t ∧
          (t = .maxDepth → level = maxDepth + 1) := by
  have hgrounded := Heap.grounded_view ring_chainsEnd
  obtain ⟨-, -, -, hlevels, -, -⟩ := inspect_bounded ring.view hgrounded (.ref 0)
  exact ⟨hgrounded, hlevels⟩

end Inspectable

end SnippetRunner
