import Mathlib.Data.List.Perm.Subperm
import SnippetRunner.Heap.Inspect

/-
  The walk up the prototypes. Inherited keys are gathered from one prototype after the other until
  there is none (`Gathers`). Where every chain of prototypes has an end the walk ends too
  (`Grounded.gathers`). For a heap it gives the inherited keys (`Heap.grounded_view`): a chain with
  an end meets no object twice, so it is not longer than the heap.
-/
namespace SnippetRunner

namespace Inspectable

variable {V : Type} (view : Inspectable V)

/-- Adds those of the keys `more` that are not yet there. -/
def gather (keys more : List String) : List String :=
  more.foldl (fun keys key => if key ∈ keys then keys else keys ++ [key]) keys

/-- The walk up the prototypes from `current` on adds to `keys`, and ends with `result`. -/
inductive Gathers (view : Inspectable V) : List String → Option V → List String → Prop
  | done (keys : List String) : Gathers view keys none keys
  | next {keys result : List String} {p : V}
      (h : Gathers view (gather keys (view.ownKeys p)) (view.prototype? p) result) :
      Gathers view keys (some p) result

/-- The prototypes from `current` on, up to one without a prototype. -/
inductive Chain (view : Inspectable V) : Option V → List V → Prop
  | done : Chain view none []
  | next {p : V} {ps : List V} (h : Chain view (view.prototype? p) ps) :
      Chain view (some p) (p :: ps)

/-- Every chain of prototypes has an end. -/
def ChainsEnd : Prop := ∀ v, ∃ ps, view.Chain (view.prototype? v) ps

/-- Every chain of prototypes has an end, and the inherited keys are those of its members. -/
structure Grounded (view : Inspectable V) : Prop where
  ends : view.ChainsEnd
  inherits : ∀ {v ps}, view.Chain (view.prototype? v) ps →
    view.inheritedKeys v = gather [] (ps.flatMap view.ownKeys)

theorem gather_eq (keys more : List String) :
    gather keys more = keys ++ (Fields.firstOccurrences more).filter (· ∉ keys) := by
  induction more generalizing keys with
  | nil => simp [gather, Fields.firstOccurrences]
  | cons key more ih =>
    have hstep : gather keys (key :: more) =
        gather (if key ∈ keys then keys else keys ++ [key]) more := rfl
    rw [hstep, ih, Fields.firstOccurrences]
    by_cases h : key ∈ keys
    · rw [if_pos h, List.filter_cons_of_neg (by simpa using h), List.filter_filter]
      congr 1
      refine List.filter_congr fun other _ => ?_
      by_cases hother : other = key <;> simp [hother, h]
    · rw [if_neg h, List.filter_cons_of_pos (by simpa using h), List.filter_filter,
        List.append_assoc, List.singleton_append]
      congr 2
      refine List.filter_congr fun other _ => ?_
      simp

variable {view}

/-- The walk gathers the keys of the whole chain. -/
theorem Chain.gathers {current : Option V} {ps : List V} (h : view.Chain current ps)
    (keys : List String) : view.Gathers keys current (gather keys (ps.flatMap view.ownKeys)) := by
  induction h generalizing keys with
  | done => exact .done keys
  | next _ ih =>
    rw [List.flatMap_cons, gather, List.foldl_append]
    exact .next (ih _)

theorem Grounded.gathers (h : view.Grounded) (v : V) :
    view.Gathers [] (view.prototype? v) (view.inheritedKeys v) := by
  obtain ⟨ps, hps⟩ := h.ends v
  rw [h.inherits hps]
  exact hps.gathers []

theorem Chain.unique {current : Option V} {ps qs : List V} (hps : view.Chain current ps)
    (hqs : view.Chain current qs) : ps = qs := by
  induction hps generalizing qs with
  | done =>
    cases hqs
    rfl
  | next _ ih =>
    cases hqs with
    | next hqs => rw [ih hqs]

/-- A chain goes on from each of its members. -/
theorem Chain.from_mem {current : Option V} {ps : List V} (h : view.Chain current ps) {p : V}
    (hp : p ∈ ps) : ∃ rest, view.Chain (some p) (p :: rest) ∧ rest.length < ps.length := by
  induction h with
  | done => cases hp
  | @next q qs hqs ih =>
    rcases List.mem_cons.mp hp with rfl | hp
    · exact ⟨qs, .next hqs, Nat.lt_succ_self _⟩
    · obtain ⟨rest, hrest, hlength⟩ := ih hp
      exact ⟨rest, hrest, Nat.lt_succ_of_lt hlength⟩

/-- A chain meets no member twice, for what follows a member is always as long. -/
theorem Chain.nodup {current : Option V} {ps : List V} (h : view.Chain current ps) :
    ps.Nodup := by
  induction h with
  | done => exact List.nodup_nil
  | @next p ps hps ih =>
    refine List.nodup_cons.mpr ⟨fun hp => ?_, ih⟩
    obtain ⟨rest, hrest, hlength⟩ := hps.from_mem hp
    obtain ⟨-, rfl⟩ := List.cons.inj (hrest.unique (.next hps))
    exact Nat.lt_irrefl _ hlength

end Inspectable

namespace Heap

open Inspectable

/-- All members of a chain but the last have a prototype, so they are objects of the heap. -/
theorem mem_dropLast_of_chain {h : Heap} {current : Option Value} {ps : List Value}
    (hps : h.view.Chain current ps) {p : Value} (hp : p ∈ ps.dropLast) :
    ∃ place < h.length, p = .ref place := by
  induction hps with
  | done => cases hp
  | @next q qs hqs ih =>
    cases qs with
    | nil => cases hp
    | cons r rs =>
      rw [List.dropLast_cons_cons] at hp
      rcases List.mem_cons.mp hp with rfl | hp
      · have hproto : h.prototype? p = some r := by
          cases hnext : h.view.prototype? p with
          | none =>
            rw [hnext] at hqs
            cases hqs
          | some r' =>
            rw [hnext] at hqs
            cases hqs
            exact hnext
        obtain ⟨o, ho, -⟩ := Option.bind_eq_some_iff.mp hproto
        cases p with
        | ref place => exact ⟨place, (List.getElem?_eq_some_iff.mp ho).1, rfl⟩
        | _ => cases ho
      · exact ih hp

theorem length_le_of_chain {h : Heap} {current : Option Value} {ps : List Value}
    (hps : h.view.Chain current ps) : ps.length ≤ h.length + 1 := by
  have hsubset : ps.dropLast ⊆ (List.range h.length).map Value.ref := by
    intro p hp
    obtain ⟨place, hplace, rfl⟩ := mem_dropLast_of_chain hps hp
    exact List.mem_map_of_mem (List.mem_range.mpr hplace)
  have hnodup : ps.dropLast.Nodup := hps.nodup.sublist (List.dropLast_sublist ps)
  have hlength := (List.subperm_of_subset hnodup hsubset).length_le
  rw [List.length_dropLast, List.length_map, List.length_range] at hlength
  omega

theorem prototypes_of_chain {h : Heap} {v : Value} {ps : List Value} {count : Nat}
    (hps : h.view.Chain (h.prototype? v) ps) (hcount : ps.length ≤ count) :
    h.prototypes count v = ps := by
  induction count generalizing v ps with
  | zero =>
    rw [List.eq_nil_of_length_eq_zero (Nat.le_zero.mp hcount)]
    rfl
  | succ count ih =>
    unfold prototypes
    cases hproto : h.prototype? v with
    | none =>
      rw [hproto] at hps
      cases hps
      rfl
    | some p =>
      rw [hproto] at hps
      cases hps with
      | next hps => exact congrArg (p :: ·) (ih hps (Nat.le_of_succ_le_succ hcount))

theorem inheritedKeys_of_chain {h : Heap} {v : Value} {ps : List Value}
    (hps : h.view.Chain (h.prototype? v) ps) :
    h.inheritedKeys v = gather [] (ps.flatMap h.ownKeys) := by
  rw [inheritedKeys, prototypeChain, prototypes_of_chain hps (length_le_of_chain hps), gather_eq,
    List.nil_append, List.filter_eq_self.mpr (by simp)]

theorem grounded_view {h : Heap} (hends : h.view.ChainsEnd) : h.view.Grounded :=
  ⟨hends, inheritedKeys_of_chain⟩

end Heap

end SnippetRunner
