import SnippetRunner.Proofs.Inspect.ShownKeys

/-
  The slot of the prototype. It is added by a count: the prototype shows more properties than the
  object does. What the prototype shows may come from its own keys, from those it inherits, or
  hold the slot of a prototype of its own; in each case there are no more of them than there are
  different keys along the chain (`length_le_of_chain`). So an object has the slot only if its
  prototypes have a key that it has not (`record_prototype_slot`).
-/
namespace SnippetRunner

namespace Fields

theorem length_firstOccurrences_le {s t : List String} (h : s ⊆ t) :
    (firstOccurrences s).length ≤ (firstOccurrences t).length := by
  refine (List.subperm_of_subset (nodup_firstOccurrences s) fun key hkey => ?_).length_le
  exact mem_firstOccurrences.mpr (h (mem_firstOccurrences.mp hkey))

/-- Of two lists of keys, the one with more different keys has one that the other lacks. -/
theorem exists_new_of_length_lt {s t : List String}
    (h : (firstOccurrences s).length < (firstOccurrences t).length) : ∃ key ∈ t, key ∉ s := by
  by_contra hnone
  push Not at hnone
  exact Nat.not_lt.mpr (length_firstOccurrences_le hnone) h

theorem length_set_le {α : Type} (fields : List (String × α)) (key : String) (a : α) :
    (set fields key a).length ≤ fields.length + 1 := by
  induction fields with
  | nil => exact Nat.le_refl 1
  | cons entry rest ih =>
    unfold set
    split
    · exact Nat.le_succ _
    · exact Nat.succ_le_succ ih

end Fields

namespace Inspectable

variable {V : Type} (view : Inspectable V)

/-- Neither `v` nor any of its prototypes has a type with a list of properties to show. -/
def Uncurated (v : V) : Prop :=
  ∀ ps, view.Chain (some v) ps → ∀ q ∈ ps, AudioProperties.find? (view.objectName q) = none

variable {view} {path : List V} {v : V}

/-! ## The entries of an object of another type -/

theorem subtree_of_uncurated (hview : view.Walks)
    (hname : AudioProperties.find? (view.objectName v) = none) {name : String}
    {props : List (String × Snapshot)} (h : view.subtree path v = .object name props) :
    props = view.plainEntries path v := by
  have hkind := (kind_of_subtree h).1
  have hexpanded := (subtree_eq_expanded (.inr ⟨name, props, h⟩)).2.2
  have hplain : view.IsPlain v := by
    intro listed hlisted
    rw [hname] at hlisted
    cases hlisted
  rcases expanded_cases hview path hkind with ⟨hnot, -⟩ | ⟨-, hentries⟩
  · exact absurd hplain hnot
  · rw [h, hentries] at hexpanded
    exact (Snapshot.object.inj hexpanded).2

theorem prototypeSlot?_eq_some {slot : Snapshot} (h : view.prototypeSlot? path v = some slot) :
    ∃ p name shown, view.prototype? v = some p ∧
      view.subtree (v :: path) p = .object name shown ∧
      (view.plainKeys v).length < shown.length := by
  unfold prototypeSlot? at h
  obtain ⟨p, hp, h⟩ := Option.bind_eq_some_iff.mp h
  obtain ⟨shown, hshown, h⟩ := Option.bind_eq_some_iff.mp h
  obtain ⟨name, hobject⟩ := Snapshot.props?_eq_some hshown
  split at h
  · next hlt => exact ⟨p, name, shown, hp, hobject, hlt⟩
  · cases h

theorem plainKeys_subset (hview : view.Walks) {ps : List V}
    (hps : view.Chain (view.prototype? v) ps) :
    view.plainKeys v ⊆ (v :: ps).flatMap view.ownKeys := by
  obtain ⟨qs, hqs, hkeys⟩ := hview.inheritedKeys_eq v
  obtain rfl := hqs.unique hps
  rw [List.flatMap_cons]
  intro key hkey
  unfold plainKeys at hkey
  split at hkey
  · rw [hkeys, Fields.mem_firstOccurrences] at hkey
    exact List.mem_append_right _ hkey
  · exact List.mem_append_left _ (Fields.mem_firstOccurrences.mp hkey)

/-- An object shows no more properties than there are different keys along its chain. -/
theorem length_le_of_chain (hview : view.Walks) {ps : List V} (hps : view.Chain (some v) ps)
    (hnames : ∀ q ∈ ps, AudioProperties.find? (view.objectName q) = none) {name : String}
    {props : List (String × Snapshot)} (h : view.subtree path v = .object name props) :
    props.length ≤ (Fields.firstOccurrences (ps.flatMap view.ownKeys)).length := by
  induction ps generalizing v path name props with
  | nil => cases hps
  | cons q ps ih =>
    cases hps with
    | next hps =>
      obtain ⟨hname, hrest⟩ := List.forall_mem_cons.mp hnames
      obtain rfl := subtree_of_uncurated hview hname h
      have hkeys : (view.plainKeys q).length ≤
          (Fields.firstOccurrences ((q :: ps).flatMap view.ownKeys)).length := by
        rw [← Fields.firstOccurrences_of_nodup (hview.nodup_plainKeys q)]
        exact Fields.length_firstOccurrences_le (plainKeys_subset hview hps)
      unfold plainEntries
      cases hslot : view.prototypeSlot? path q with
      | none =>
        rw [Option.elim_none, length_slots]
        exact hkeys
      | some slot =>
        -- the slot counts for one, and the prototype shows at least one property more
        obtain ⟨p, name', shown, hp, hobject, hmore⟩ := prototypeSlot?_eq_some hslot
        rw [hp] at hps
        have habove := ih hps hrest hobject
        have hset := Fields.length_set_le (view.slots path q (view.plainKeys q)) prototypeKey slot
        have hmono : (Fields.firstOccurrences (ps.flatMap view.ownKeys)).length ≤
            (Fields.firstOccurrences ((q :: ps).flatMap view.ownKeys)).length := by
          refine Fields.length_firstOccurrences_le ?_
          rw [List.flatMap_cons]
          exact List.subset_append_right _ _
        rw [length_slots] at hset
        rw [Option.elim_some]
        omega

/-- The slot is added only for a key that the object inherits and does not have itself. -/
theorem exists_new_key (hview : view.Walks) (h : view.Uncurated v)
    (hslot : (view.prototypeSlot? path v).isSome = true) :
    view.ownKeys v ≠ [] ∧ ∃ key ∈ view.inheritedKeys v, key ∉ view.ownKeys v := by
  obtain ⟨slot, hslot⟩ := Option.isSome_iff_exists.mp hslot
  obtain ⟨p, name, shown, hp, hobject, hmore⟩ := prototypeSlot?_eq_some hslot
  obtain ⟨ps, hps, hkeys⟩ := hview.inheritedKeys_eq v
  have hnames : ∀ q ∈ ps, AudioProperties.find? (view.objectName q) = none :=
    fun q hq => h (v :: ps) (.next hps) q (List.mem_cons_of_mem _ hq)
  have hshown : shown.length ≤ (view.inheritedKeys v).length := by
    rw [hkeys]
    exact length_le_of_chain hview (hp ▸ hps) hnames hobject
  have hlt : (view.plainKeys v).length < (view.inheritedKeys v).length := by omega
  have hown : view.ownKeys v ≠ [] := by
    intro hown
    unfold plainKeys at hlt
    rw [if_pos hown] at hlt
    exact Nat.lt_irrefl _ hlt
  refine ⟨hown, Fields.exists_new_of_length_lt ?_⟩
  unfold plainKeys at hlt
  rw [if_neg hown] at hlt
  rwa [Fields.firstOccurrences_of_nodup (hview.nodup_inheritedKeys v)]

theorem mem_keys_plainEntries {key : String}
    (h : key ∈ Fields.keys (view.plainEntries path v)) :
    key ∈ view.plainKeys v ∨ (view.prototypeSlot? path v).isSome = true := by
  unfold plainEntries at h
  cases hslot : view.prototypeSlot? path v with
  | none =>
    rw [hslot, Option.elim_none, keys_slots] at h
    exact .inl h
  | some slot => exact .inr rfl

/-- Of an object whose type, like those of its prototypes, has no list of properties to show, the
entries are its properties and, if the inspector adds it, the slot of the prototype. The slot is
added only if the object inherits a key that it does not have itself, and never to an object
without keys of its own; so unless it has one of its own, it shows the key of the slot only then. -/
theorem record_prototype_slot (view : Inspectable V) (hview : view.Walks) (root : V) :
    ∀ visit ∈ (view.record root).2, view.Uncurated visit.value →
      ∀ name props, visit.shown = .object name props →
        props = (view.prototypeSlot? visit.path visit.value).elim
            (view.slots visit.path visit.value (view.plainKeys visit.value))
            (Fields.set (view.slots visit.path visit.value (view.plainKeys visit.value))
              prototypeKey) ∧
          ((view.prototypeSlot? visit.path visit.value).isSome = true →
            ∃ key ∈ view.inheritedKeys visit.value, key ∉ view.ownKeys visit.value) ∧
          (view.ownKeys visit.value = [] →
            view.prototypeSlot? visit.path visit.value = none) ∧
          (prototypeKey ∈ Fields.keys props → prototypeKey ∉ view.ownKeys visit.value →
            ∃ key ∈ view.inheritedKeys visit.value, key ∉ view.ownKeys visit.value) := by
  intro visit hvisit huncurated name props hshown
  have hsubtree := ((record_exact view root).2 visit hvisit).shown
  rw [hshown] at hsubtree
  obtain ⟨ps, hps, -⟩ := hview.inheritedKeys_eq visit.value
  have hname := huncurated _ (.next hps) visit.value (List.mem_cons_self ..)
  obtain rfl := subtree_of_uncurated hview hname hsubtree.symm
  refine ⟨rfl, fun hslot => (exists_new_key hview huncurated hslot).2, fun hown => ?none, ?key⟩
  case none =>
    refine Option.eq_none_iff_forall_ne_some.mpr fun slot hslot => ?_
    exact (exists_new_key hview huncurated (Option.isSome_of_eq_some hslot)).1 hown
  case key =>
    intro hkey hown
    rcases mem_keys_plainEntries hkey with hkey | hslot
    · unfold plainKeys at hkey
      split at hkey
      · exact ⟨prototypeKey, hkey, hown⟩
      · exact absurd (Fields.mem_firstOccurrences.mp hkey) hown
    · exact (exists_new_key hview huncurated hslot).2

/-- An object with one key and a prototype with two. -/
def derived : Heap :=
  [{ HeapObject.plain "Derived" [("own", .bool true)] with prototype := some (.ref 1) },
    .plain "Base" [("first", .null), ("second", .null)]]

theorem derived_uncurated : derived.view.Uncurated (.ref 0) := by
  have hchain : derived.view.Chain (some (.ref 0)) [.ref 0, .ref 1] := .next (.next .done)
  intro ps hps
  rw [hps.unique hchain]
  decide

theorem derived_prototype_slot :
    derived.view.Walks ∧ ∃ visit ∈ (derived.view.record (.ref 0)).2,
      derived.view.Uncurated visit.value ∧ (∃ props, visit.shown = .object "Derived" props) ∧
      (derived.view.prototypeSlot? visit.path visit.value).isSome = true ∧
      ∃ key ∈ ["first", "second"], key ∉ ["own"] := by
  have hview : derived.view.Walks := Heap.walks_of_base (.ref 1) rfl (by decide)
  obtain ⟨visit, hvisit, hpath, hvalue, -⟩ := exists_root_visit derived.view (.ref 0)
  have hshown : visit.shown = derived.view.inspect (.ref 0) := by
    rw [((record_exact derived.view (.ref 0)).2 visit hvisit).shown, hpath, hvalue,
      inspect_eq_tree]
    rfl
  have huncurated : derived.view.Uncurated visit.value := by
    rw [hvalue]
    exact derived_uncurated
  have hslot : (derived.view.prototypeSlot? visit.path visit.value).isSome = true := by
    rw [hpath, hvalue]
    decide +kernel
  obtain ⟨props, hobject⟩ : ∃ props, visit.shown = .object "Derived" props :=
    ⟨_, hshown.trans rfl⟩
  obtain ⟨-, hnew, -, -⟩ :=
    record_prototype_slot derived.view hview (.ref 0) visit hvisit huncurated _ props hobject
  refine ⟨hview, visit, hvisit, huncurated, ⟨props, hobject⟩, hslot, ?_⟩
  have hkey := hnew hslot
  rw [hvalue] at hkey
  exact hkey

end Inspectable

end SnippetRunner
