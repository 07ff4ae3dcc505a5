import SnippetRunner.Proofs.Inspect.Tree
import SnippetRunner.Proofs.Snapshot.Agreement

/-
  Reads that fail. A read that fails shows the same as a text that says so would, only that the
  text is cut off where the tree ends and the failed read is not. Two views of the same values, of
  which one has such texts where reads fail in the other (`Mends`), show trees that agree down to
  that level (`Mends.agree_tree`): every part of the inspector takes the same decisions in both. A
  heap has such views before and after one of its failing properties is replaced
  (`Heap.Mended.mends`).
-/
namespace SnippetRunner

namespace Inspectable

open Snapshot

variable {V : Type}

/-- The views are the same but for reads that fail for `reason` in the first. There the second may
give a value that is shown as the placeholder. -/
structure Mends (reason : String) (view view' : Inspectable V) : Prop where
  kind : view'.kind = view.kind
  sameReference : view'.sameReference = view.sameReference
  className? : view'.className? = view.className?
  ownKeys : view'.ownKeys = view.ownKeys
  inheritedKeys : view'.inheritedKeys = view.inheritedKeys
  prototype? : view'.prototype? = view.prototype?
  property : ∀ v key, view'.property v key = view.property v key ∨
    view.property v key = .error reason ∧ ∃ c, view'.property v key = .ok (some c) ∧
      (view.kind c).leaf? = some (.unserializable reason)

/-- The snapshots of the values agree, also where only one of the views gives a value. -/
structure ShowsAlike (reason : String) (level : Nat) (view : Inspectable V)
    (shown shown' : V → Snapshot) : Prop where
  values : ∀ c, Agree reason level (shown c) (shown' c)
  mended : ∀ c, (view.kind c).leaf? = some (.unserializable reason) →
    Agree reason level (.unserializable reason) (shown' c)

variable {reason : String} {level : Nat} {view view' : Inspectable V} {v : V}

theorem Mends.objectName (h : Mends reason view view') : view'.objectName = view.objectName := by
  funext v
  rw [Inspectable.objectName, Inspectable.objectName, h.className?]

/-! ## The contents of one value -/

section Content

variable {shown shown' : V → Snapshot}

theorem Mends.readSlot? (h : Mends reason view view')
    (hshown : ShowsAlike reason level view shown shown') (key : String) :
    Option.Rel (Agree reason level) (view.readSlot? (m := Id) shown v key).run
      (view'.readSlot? (m := Id) shown' v key).run := by
  unfold Inspectable.readSlot?
  rcases h.property v key with hsame | ⟨herror, c, hok, hleaf⟩
  · rw [hsame]
    cases view.property v key with
    | error other => exact .some (.refl _)
    | ok found =>
      cases found with
      | none => exact .none
      | some c => exact .some (hshown.values c)
  · rw [herror, hok]
    exact .some (hshown.mended c hleaf)

theorem Mends.readSlot (h : Mends reason view view')
    (hshown : ShowsAlike reason level view shown shown') (key : String) :
    Agree reason level (view.readSlot (m := Id) shown v key).run
      (view'.readSlot (m := Id) shown' v key).run := by
  have hrun (view : Inspectable V) (shown : V → Snapshot) :
      (view.readSlot (m := Id) shown v key).run =
        (view.readSlot? (m := Id) shown v key).run.getD .undefined := rfl
  rw [hrun, hrun]
  have hslot := h.readSlot? (v := v) hshown key
  generalize (view.readSlot? (m := Id) shown v key).run = found,
    (view'.readSlot? (m := Id) shown' v key).run = found' at hslot
  cases hslot with
  | none => exact .refl _
  | some hslot => exact hslot

theorem Mends.readAll (h : Mends reason view view')
    (hshown : ShowsAlike reason level view shown shown') (keys : List String) :
    List.Forall₂ (EntryAgree reason level) (view.readAll (m := Id) shown v keys).run
      (view'.readAll (m := Id) shown' v keys).run := by
  induction keys with
  | nil => exact .nil
  | cons key keys ih => exact .cons ⟨rfl, h.readSlot hshown key⟩ ih

/-- A property is left out in both views or in none. -/
theorem Mends.readPresent (h : Mends reason view view')
    (hshown : ShowsAlike reason level view shown shown') (keys : List String) :
    List.Forall₂ (EntryAgree reason level) (view.readPresent (m := Id) shown v keys).run
      (view'.readPresent (m := Id) shown' v keys).run := by
  induction keys with
  | nil => exact .nil
  | cons key keys ih =>
    rw [run_readPresent_cons, run_readPresent_cons]
    have hslot := h.readSlot? (v := v) hshown key
    generalize (view.readSlot? (m := Id) shown v key).run = found,
      (view'.readSlot? (m := Id) shown' v key).run = found' at hslot
    cases hslot with
    | none => exact ih
    | some hslot => exact .cons ⟨rfl, hslot⟩ ih

theorem Mends.plainProps (h : Mends reason view view')
    (hshown : ShowsAlike reason level view shown shown') :
    List.Forall₂ (EntryAgree reason level) (view.plainProps (m := Id) shown v).run
      (view'.plainProps (m := Id) shown' v).run := by
  rw [run_plainProps, run_plainProps, h.ownKeys, h.inheritedKeys]
  have hown := h.readAll (v := v) hshown (Fields.firstOccurrences (view.ownKeys v))
  rw [isEmpty_eq_of_forall₂ hown]
  split
  · exact h.readAll hshown _
  · exact hown

theorem Mends.curatedProps (h : Mends reason view view')
    (hshown : ShowsAlike reason level view shown shown') :
    List.Forall₂ (EntryAgree reason level) (view.curatedProps (m := Id) shown v).run
      (view'.curatedProps (m := Id) shown' v).run := by
  unfold Inspectable.curatedProps
  rw [h.objectName]
  cases AudioProperties.find? (view.objectName v) with
  | none => exact .nil
  | some keys => exact h.readPresent hshown _

theorem forall₂_set {props props' : List (String × Snapshot)} {key : String} {s s' : Snapshot}
    (h : List.Forall₂ (EntryAgree reason level) props props') (hs : Agree reason level s s') :
    List.Forall₂ (EntryAgree reason level) (Fields.set props key s) (Fields.set props' key s') := by
  induction h with
  | nil => exact .cons ⟨rfl, hs⟩ .nil
  | @cons entry entry' rest rest' hentry hrest ih =>
    unfold Fields.set
    rw [hentry.key]
    split
    · next hkey => exact .cons ⟨rfl, hs⟩ hrest
    · exact .cons ⟨rfl, hentry.value⟩ ih

/-- The prototypes show equally many properties, so they are added in both views or in none. -/
theorem Mends.withPrototype (h : Mends reason view view')
    (hshown : ShowsAlike reason level view shown shown') {props props' : List (String × Snapshot)}
    (hprops : List.Forall₂ (EntryAgree reason level) props props') :
    List.Forall₂ (EntryAgree reason level) (view.withPrototype (m := Id) shown v props).run
      (view'.withPrototype (m := Id) shown' v props').run := by
  rw [run_withPrototype, run_withPrototype, h.prototype?]
  cases view.prototype? v with
  | none => exact hprops
  | some p =>
    have hp := hshown.values p
    have hkeys := hp.keys_props?
    dsimp only
    cases hinner : (shown p).props? with
    | none =>
      rw [hinner, Option.map_none, eq_comm, Option.map_eq_none_iff] at hkeys
      rw [hkeys]
      exact hprops
    | some inner =>
      rw [hinner, Option.map_some, eq_comm, Option.map_eq_some_iff] at hkeys
      obtain ⟨inner', hinner', hkeys⟩ := hkeys
      have hlength : inner'.length = inner.length := by
        simpa [Fields.keys] using congrArg List.length hkeys
      obtain ⟨name, hname⟩ := props?_eq_some hinner
      obtain ⟨name', hname'⟩ := props?_eq_some hinner'
      rw [hname, hname'] at hp
      rw [hinner']
      dsimp only
      rw [hlength, hprops.length_eq, h.objectName]
      split
      · exact forall₂_set hprops (hp.renamed _)
      · exact hprops

theorem Mends.visitObject (h : Mends reason view view')
    (hshown : ShowsAlike reason level view shown shown') :
    Agree reason (level + 1) (view.visitObject (m := Id) shown v).run
      (view'.visitObject (m := Id) shown' v).run := by
  rw [run_visitObject, run_visitObject, h.objectName]
  refine agree_object _ ?_
  have hcurated := h.curatedProps (v := v) hshown
  rw [isEmpty_eq_of_forall₂ hcurated]
  split
  · exact h.withPrototype hshown (h.plainProps hshown)
  · exact hcurated

theorem Mends.visitArray (h : Mends reason view view')
    (hshown : ShowsAlike reason level view shown shown') (length : Nat) :
    Agree reason (level + 1) (view.visitArray (m := Id) shown v length).run
      (view'.visitArray (m := Id) shown' v length).run := by
  refine agree_array length (List.rel_append ?items ?marker)
  case items =>
    refine List.forall₂_map_left_iff.mpr (List.forall₂_map_right_iff.mpr ?_)
    exact (h.readAll hshown _).imp fun _ _ => EntryAgree.value
  case marker => exact List.forall₂_same.mpr fun s _ => .refl s

theorem Mends.visitContent (h : Mends reason view view')
    (hshown : ShowsAlike reason level view shown shown') :
    Agree reason (level + 1) (view.visitContent (m := Id) shown v).run
      (view'.visitContent (m := Id) shown' v).run := by
  unfold Inspectable.visitContent
  rw [h.kind]
  cases view.kind v with
  | array length => exact h.visitArray hshown length
  | _ => exact h.visitObject hshown

end Content

/-! ## All levels -/

/-- The trees agree down to the level where they end. -/
theorem Mends.agree_tree (h : Mends reason view view') (levels : Nat) (path : List V) (v : V) :
    Agree reason levels (view.tree levels path v) (view'.tree levels path v) := by
  induction levels generalizing path v with
  | zero => exact .refl _
  | succ levels ih =>
    have hkind : view'.kind v = view.kind v := by rw [h.kind]
    have honPath : view'.onPath path v = view.onPath path v := by
      rw [onPath, onPath, h.sameReference]
    cases hleaf : (view.kind v).leaf? with
    | some s =>
      rw [tree_succ_of_leaf hleaf, tree_succ_of_leaf (hkind ▸ hleaf)]
      exact .refl s
    | none =>
      cases hon : view.onPath path v with
      | true =>
        rw [tree_succ_of_onPath hleaf hon, tree_succ_of_onPath (hkind ▸ hleaf) (honPath ▸ hon),
          h.objectName]
        exact .refl _
      | false =>
        rw [tree_succ_of_not_onPath hleaf hon,
          tree_succ_of_not_onPath (hkind ▸ hleaf) (honPath ▸ hon)]
        refine h.visitContent ⟨ih (v :: path), fun c hc => ?_⟩
        -- a value in place of a failed read is cut off if no level is left
        cases levels with
        | zero => exact agree_maxDepth
        | succ levels =>
          rw [tree_succ_of_leaf ((congrFun h.kind c).symm ▸ hc)]
          exact .refl _

end Inspectable

/-! ## Heaps -/

/-- A text that tells of it stands in place of one property whose read fails for `reason`. -/
inductive HeapObject.Mended (reason : String) (o : HeapObject) : HeapObject → Prop
  | listed {key : String} {before after : List (String × Value)}
      (h : o.entries = before ++ (key, .failing reason) :: after) :
      Mended reason o { o with
        entries := before ++ (key, .string ("[Unserializable: " ++ reason ++ "]")) :: after }
  | hidden {key : String} {before after : List (String × Value)}
      (h : o.hidden = before ++ (key, .failing reason) :: after) :
      Mended reason o { o with
        hidden := before ++ (key, .string ("[Unserializable: " ++ reason ++ "]")) :: after }

/-- A property whose read fails for `reason` is replaced in one of the objects. -/
inductive Heap.Mended (reason : String) : Heap → Heap → Prop
  | object {o o' : HeapObject} {before after : Heap} (h : o.Mended reason o') :
      Mended reason (before ++ o :: after) (before ++ o' :: after)

/-- What may be found under a key when the property may have been replaced. -/
def Value.Mended (reason : String) (a a' : Value) : Prop :=
  a' = a ∨ a = .failing reason ∧ a' = .string ("[Unserializable: " ++ reason ++ "]")

/-- The objects are the same but for a property that may have been replaced. -/
structure HeapObject.Alike (reason : String) (o o' : HeapObject) : Prop where
  className : o'.className = o.className
  keys : Fields.keys o'.entries = Fields.keys o.entries
  prototype : o'.prototype = o.prototype
  arrayLength : o'.arrayLength = o.arrayLength
  property? : ∀ key, Option.Rel (Value.Mended reason) (o.property? key) (o'.property? key)

section Heaps

variable {reason : String}

theorem rel_refl_mended (found : Option Value) : Option.Rel (Value.Mended reason) found found := by
  cases found with
  | none => exact .none
  | some a => exact .some (.inl rfl)

theorem rel_get?_mended (before after : List (String × Value)) (key key' : String) :
    Option.Rel (Value.Mended reason)
      (Fields.get? (before ++ (key, .failing reason) :: after) key')
      (Fields.get?
        (before ++ (key, .string ("[Unserializable: " ++ reason ++ "]")) :: after) key') := by
  induction before with
  | nil =>
    rw [List.nil_append, List.nil_append, Fields.get?_cons, Fields.get?_cons]
    split
    · exact .some (.inr ⟨rfl, rfl⟩)
    · exact rel_refl_mended _
  | cons entry before ih =>
    rw [List.cons_append, List.cons_append, Fields.get?_cons, Fields.get?_cons]
    split
    · exact rel_refl_mended _
    · exact ih

theorem HeapObject.Alike.refl (o : HeapObject) : o.Alike reason o :=
  ⟨rfl, rfl, rfl, rfl, fun _ => rel_refl_mended _⟩

theorem HeapObject.Mended.alike {o o' : HeapObject} (h : o.Mended reason o') :
    o.Alike reason o' := by
  cases h with
  | @listed key before after hentries =>
    refine ⟨rfl, ?_, rfl, rfl, fun key' => ?_⟩
    · rw [hentries]
      simp [Fields.keys]
    · unfold HeapObject.property?
      dsimp only
      rw [hentries, List.append_assoc, List.append_assoc]
      exact rel_get?_mended before (after ++ o.hidden) key key'
  | @hidden key before after hhidden =>
    refine ⟨rfl, rfl, rfl, rfl, fun key' => ?_⟩
    unfold HeapObject.property?
    dsimp only
    rw [hhidden, ← List.append_assoc, ← List.append_assoc]
    exact rel_get?_mended (o.entries ++ before) after key key'

namespace Heap

variable {h h' : Heap}

theorem Mended.forall₂ (hmended : h.Mended reason h') :
    List.Forall₂ (HeapObject.Alike reason) h h' := by
  cases hmended with
  | object hobject =>
    exact List.rel_append (List.forall₂_same.mpr fun o _ => .refl o)
      (.cons hobject.alike (List.forall₂_same.mpr fun o _ => .refl o))

theorem Mended.object? (hmended : h.Mended reason h') (v : Value) :
    Option.Rel (HeapObject.Alike reason) (h.object? v) (h'.object? v) := by
  cases v with
  | ref place => exact rel_getElem? hmended.forall₂ place
  | _ => exact .none

/-- What alike objects have in common, the heaps have. -/
theorem Mended.bind_object? (hmended : h.Mended reason h') {α : Type} {f : HeapObject → Option α}
    (hf : ∀ o o', o.Alike reason o' → f o' = f o) (v : Value) :
    (h'.object? v).bind f = (h.object? v).bind f := by
  have hv := hmended.object? v
  generalize h.object? v = found, h'.object? v = found' at hv
  cases hv with
  | none => rfl
  | some ho => exact hf _ _ ho

theorem Mended.prototype? (hmended : h.Mended reason h') : h'.prototype? = h.prototype? :=
  funext (hmended.bind_object? fun _ _ ho => ho.prototype)

theorem Mended.ownKeys (hmended : h.Mended reason h') : h'.ownKeys = h.ownKeys := by
  funext v
  have hkeys := hmended.bind_object? (f := fun o => some (Fields.keys o.entries))
    (fun _ _ ho => congrArg some ho.keys) v
  rw [Heap.ownKeys, Heap.ownKeys, Option.map_eq_bind, Option.map_eq_bind]
  exact congrArg (Option.getD · []) hkeys

theorem Mended.kind (hmended : h.Mended reason h') : h'.kind = h.kind := by
  funext v
  cases v with
  | ref place =>
    have hlength := hmended.bind_object? (f := HeapObject.arrayLength)
      (fun _ _ ho => ho.arrayLength) (.ref place)
    exact congrArg (fun length => (length.map ValueKind.array).getD .object) hlength
  | _ => rfl

theorem Mended.prototypeChain (hmended : h.Mended reason h') :
    h'.prototypeChain = h.prototypeChain := by
  have hprototypes (count : Nat) (v : Value) : h'.prototypes count v = h.prototypes count v := by
    induction count generalizing v with
    | zero => rfl
    | succ count ih =>
      unfold prototypes
      rw [hmended.prototype?]
      cases h.prototype? v with
      | none => rfl
      | some p => exact congrArg (p :: ·) (ih p)
  funext v
  rw [Heap.prototypeChain, Heap.prototypeChain, ← hmended.forall₂.length_eq, hprototypes]

/-- A property is found in both heaps, and is the same but where it has been replaced. -/
theorem Mended.rel_findSome?_property? (hmended : h.Mended reason h') (key : String)
    (vs : List Value) :
    Option.Rel (Value.Mended reason)
      (vs.findSome? fun v => (h.object? v).bind (·.property? key))
      (vs.findSome? fun v => (h'.object? v).bind (·.property? key)) := by
  refine rel_findSome? (fun v => ?_) vs
  have hv := hmended.object? v
  generalize h.object? v = found, h'.object? v = found' at hv
  cases hv with
  | none => exact .none
  | some ho => exact ho.property? key

theorem Mended.property (hmended : h.Mended reason h') (v : Value) (key : String) :
    h'.property v key = h.property v key ∨
      h.property v key = .error reason ∧
        h'.property v key = .ok (some (.string ("[Unserializable: " ++ reason ++ "]"))) := by
  unfold Heap.property
  rw [hmended.prototypeChain]
  have hfound := hmended.rel_findSome?_property? key (v :: h.prototypeChain v)
  generalize (v :: h.prototypeChain v).findSome?
      (fun v => (h.object? v).bind (·.property? key)) = found,
    (v :: h.prototypeChain v).findSome?
      (fun v => (h'.object? v).bind (·.property? key)) = found' at hfound
  cases hfound with
  | none => exact .inl rfl
  | some hvalue =>
    rcases hvalue with rfl | ⟨rfl, rfl⟩
    · exact .inl rfl
    · exact .inr ⟨rfl, rfl⟩

theorem Mended.mends (hmended : h.Mended reason h') :
    Inspectable.Mends reason h.view h'.view where
  kind := hmended.kind
  sameReference := rfl
  className? := funext (hmended.bind_object? fun _ _ ho => ho.className)
  ownKeys := hmended.ownKeys
  inheritedKeys := by
    funext v
    show h'.inheritedKeys v = h.inheritedKeys v
    rw [inheritedKeys, inheritedKeys, hmended.prototypeChain, hmended.ownKeys]
  prototype? := hmended.prototype?
  property v key := (hmended.property v key).imp_right
    fun ⟨herror, hok⟩ => ⟨herror, _, hok, rfl⟩

/-- A failed read is confined to its slot. Let a property whose read fails be replaced by the text
that tells of it. Whatever the root, and however often the property is met with, both snapshots
have the same node at every place down to the greatest depth. They differ at most one level below
it, where the failed read still shows its placeholder and the text is cut off. -/
theorem inspect_mended (hmended : h.Mended reason h') (root : Value) (place : List Nat) :
    (place.length ≤ Inspectable.maxDepth →
        ((h.inspect root).at? place).map Snapshot.bare =
          ((h'.inspect root).at? place).map Snapshot.bare) ∧
      (Inspectable.maxDepth < place.length →
        (h.inspect root).at? place = (h'.inspect root).at? place ∨
          place.length = Inspectable.maxDepth + 1 ∧
            (h.inspect root).at? place = some (.unserializable reason) ∧
            (h'.inspect root).at? place = some .maxDepth) := by
  have hagree := hmended.mends.agree_tree (Inspectable.maxDepth + 1) [] root
  rw [← Inspectable.inspect_eq_tree, ← Inspectable.inspect_eq_tree] at hagree
  exact ⟨fun hplace => hagree.above place (Nat.lt_succ_of_le hplace), hagree.below place⟩

/-- Objects that hold each other in a row, the last of them with the value at its end. -/
def row (value : Value) : Heap :=
  (List.range Inspectable.maxDepth).map (fun place =>
    .plain "Link" [("next", .ref (place + 1))]) ++ [.plain "End" [("value", value)]]

theorem row_mended (reason : String) :
    (row (.failing reason)).Mended reason
      (row (.string ("[Unserializable: " ++ reason ++ "]"))) :=
  .object (@HeapObject.Mended.listed reason (.plain "End" [("value", .failing reason)]) "value"
    [] [] rfl)

set_option maxRecDepth 2000 in
theorem inspect_mended_row :
    (row (.failing "closed")).Mended "closed" (row (.string "[Unserializable: closed]")) ∧
      ((row (.failing "closed")).inspect (.ref 0)).at? (List.replicate 11 0) =
        some (.unserializable "closed") ∧
      ((row (.string "[Unserializable: closed]")).inspect (.ref 0)).at? (List.replicate 11 0) =
        some .maxDepth ∧
      ∀ place, place.length ≤ Inspectable.maxDepth →
        (((row (.failing "closed")).inspect (.ref 0)).at? place).map Snapshot.bare =
          (((row (.string "[Unserializable: closed]")).inspect (.ref 0)).at? place).map
            Snapshot.bare := by
  have hmended := row_mended "closed"
  exact ⟨hmended, rfl, rfl, fun place => (inspect_mended hmended (.ref 0) place).1⟩

end Heap

end Heaps

end SnippetRunner
