import Mathlib.Data.List.Forall2
import SnippetRunner.Fields
import SnippetRunner.Snapshot

/-
  Two snapshots that differ in a failed read only. A node is found by its place, which says for
  every level which part to go on with (`at?`). Two snapshots agree down to a level if they have
  the same node at every place above it, and at the level itself differ only where one tells that
  a read has failed and the other was cut off (`Agree`). Agreement is built up from the leaves: of
  arrays and objects it is shown part by part (`Agree.of_parts`).
-/
namespace SnippetRunner

theorem rel_getElem? {α β : Type} {R : α → β → Prop} {as : List α} {bs : List β}
    (h : List.Forall₂ R as bs) (index : Nat) : Option.Rel R as[index]? bs[index]? := by
  induction h generalizing index with
  | nil => exact .none
  | cons hab _ ih =>
    cases index with
    | zero => exact .some hab
    | succ index => exact ih index

theorem rel_findSome? {α β : Type} {R : β → β → Prop} {f f' : α → Option β}
    (hf : ∀ a, Option.Rel R (f a) (f' a)) (as : List α) :
    Option.Rel R (as.findSome? f) (as.findSome? f') := by
  induction as with
  | nil => exact .none
  | cons a as ih =>
    have ha := hf a
    rw [List.findSome?_cons, List.findSome?_cons]
    generalize f a = found, f' a = found' at ha
    cases ha with
    | none => exact ih
    | some ha => exact .some ha

theorem isEmpty_eq_of_forall₂ {α β : Type} {R : α → β → Prop} {as : List α} {bs : List β}
    (h : List.Forall₂ R as bs) : as.isEmpty = bs.isEmpty := by
  cases h <;> rfl

namespace Snapshot

/-- What stands in an array or object, in order. -/
def parts : Snapshot → List Snapshot
  | array _ items => items
  | object _ props => props.map Prod.snd
  | _ => []

/-- The node on its own: an array without its items but with their number, an object with nothing
but its name and its keys. -/
def bare : Snapshot → Snapshot
  | array length items => array length (items.map fun _ => undefined)
  | object name props => object name (props.map fun entry => (entry.1, undefined))
  | leaf => leaf

@[simp] theorem bare_array (length : Nat) (items : List Snapshot) :
    (array length items).bare = array length (items.map fun _ => undefined) := rfl

@[simp] theorem bare_object (name : String) (props : List (String × Snapshot)) :
    (object name props).bare =
      object name ((Fields.keys props).map fun key => (key, undefined)) := by
  unfold bare Fields.keys
  rw [List.map_map]
  rfl

/-- The node at a place, which lists the positions of the parts that lead there. -/
def at? (s : Snapshot) : (place : List Nat) → Option Snapshot
  | [] => some s
  | position :: place => s.parts[position]?.bind (at? · place)

/-- The snapshots have the same nodes above the level. On it and below they differ at most where a
read that failed for `reason`, on the level itself, is told of by one and cut off in the other. -/
structure Agree (reason : String) (level : Nat) (s s' : Snapshot) : Prop where
  above : ∀ place, place.length < level → (s.at? place).map bare = (s'.at? place).map bare
  below : ∀ place, level ≤ place.length → s.at? place = s'.at? place ∨
    place.length = level ∧ s.at? place = some (unserializable reason) ∧
      s'.at? place = some maxDepth

/-- Entries with the same key and with values that agree. -/
structure EntryAgree (reason : String) (level : Nat) (entry entry' : String × Snapshot) :
    Prop where
  key : entry.1 = entry'.1
  value : Agree reason level entry.2 entry'.2

variable {reason : String} {level : Nat}

theorem Agree.refl (s : Snapshot) : Agree reason level s s where
  above _ _ := rfl
  below _ _ := .inl rfl

/-- On the level a failed read agrees with a value that was cut off. -/
theorem agree_maxDepth : Agree reason 0 (unserializable reason) maxDepth where
  above _ h := absurd h (Nat.not_lt_zero _)
  below place _ := by
    cases place with
    | nil => exact .inr ⟨rfl, rfl, rfl⟩
    | cons position place => exact .inl rfl

theorem Agree.of_parts {s s' : Snapshot} (hbare : s.bare = s'.bare)
    (h : List.Forall₂ (Agree reason level) s.parts s'.parts) : Agree reason (level + 1) s s' where
  above place hplace := by
    cases place with
    | nil => exact congrArg some hbare
    | cons position place =>
      have hpart := rel_getElem? h position
      unfold at?
      generalize s.parts[position]? = part, s'.parts[position]? = part' at hpart
      cases hpart with
      | none => rfl
      | some hpart => exact hpart.above place (Nat.lt_of_succ_lt_succ hplace)
  below place hplace := by
    cases place with
    | nil => exact absurd hplace (Nat.not_succ_le_zero _)
    | cons position place =>
      have hpart := rel_getElem? h position
      unfold at?
      generalize s.parts[position]? = part, s'.parts[position]? = part' at hpart
      cases hpart with
      | none => exact .inl rfl
      | some hpart =>
        refine (hpart.below place (Nat.le_of_succ_le_succ hplace)).imp_right ?_
        exact And.imp_left (congrArg Nat.succ)

theorem agree_array (length : Nat) {items items' : List Snapshot}
    (h : List.Forall₂ (Agree reason level) items items') :
    Agree reason (level + 1) (array length items) (array length items') := by
  refine .of_parts ?_ h
  rw [bare_array, bare_array, List.map_const', List.map_const', h.length_eq]

theorem keys_eq_of_forall₂ {props props' : List (String × Snapshot)}
    (h : List.Forall₂ (EntryAgree reason level) props props') :
    Fields.keys props = Fields.keys props' := by
  induction h with
  | nil => rfl
  | cons hentry _ ih => exact congrArg₂ List.cons hentry.key ih

theorem agree_object (name : String) {props props' : List (String × Snapshot)}
    (h : List.Forall₂ (EntryAgree reason level) props props') :
    Agree reason (level + 1) (object name props) (object name props') := by
  refine .of_parts ?_ ?_
  · rw [bare_object, bare_object, keys_eq_of_forall₂ h]
  · refine List.forall₂_map_left_iff.mpr (List.forall₂_map_right_iff.mpr ?_)
    exact h.imp fun _ _ => EntryAgree.value

/-- What agrees has the same keys, or none at all. -/
theorem Agree.keys_props? {s s' : Snapshot} (h : Agree reason level s s') :
    s.props?.map Fields.keys = s'.props?.map Fields.keys := by
  have hbare (t : Snapshot) : t.props?.map Fields.keys = t.bare.props?.map Fields.keys := by
    cases t <;> simp [props?, bare, Fields.keys]
  cases level with
  | zero =>
    rcases h.below [] (Nat.le_refl 0) with heq | ⟨-, hs, hs'⟩
    · rw [Option.some.inj heq]
    · rw [Option.some.inj hs, Option.some.inj hs']
      rfl
  | succ level =>
    have heq : s.bare = s'.bare := Option.some.inj (h.above [] (Nat.succ_pos _))
    rw [hbare s, hbare s', heq]

/-- Objects that agree do so under any other name. -/
theorem Agree.renamed {name name' : String} {props props' : List (String × Snapshot)}
    (h : Agree reason level (object name props) (object name' props')) (name'' : String) :
    Agree reason level (object name'' props) (object name'' props') where
  above place hplace := by
    cases place with
    | nil =>
      have hkeys : Fields.keys props = Fields.keys props' := Option.some.inj h.keys_props?
      exact congrArg some (by rw [bare_object, bare_object, hkeys])
    | cons position place => exact h.above (position :: place) hplace
  below place hplace := by
    cases place with
    | nil =>
      rcases h.below [] hplace with heq | ⟨-, hplaceholder, -⟩
      · obtain ⟨-, rfl⟩ := Snapshot.object.inj (Option.some.inj heq)
        exact .inl rfl
      · cases hplaceholder
    | cons position place => exact h.below (position :: place) hplace

end Snapshot

end SnippetRunner
