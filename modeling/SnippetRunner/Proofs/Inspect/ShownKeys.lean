import SnippetRunner.Proofs.Inspect.Levels

/-
  What an object shows. Its keys come from one of three lists, the first that has any: the
  properties of audio objects of its type, as far as it has them, its own keys, and the keys of its
  prototypes (`ShowsKeys`). Under each key stands what the property holds, one level deeper; only
  the reserved key of the prototype may come from elsewhere (`record_shows_properties`).
-/
namespace SnippetRunner

namespace Fields

variable {α : Type} {fields : List (String × α)} {key : String}

theorem firstOccurrences_of_nodup {s : List String} (h : s.Nodup) : firstOccurrences s = s := by
  induction s with
  | nil => rfl
  | cons k rest ih =>
    obtain ⟨hk, hrest⟩ := List.nodup_cons.mp h
    rw [firstOccurrences, ih hrest, List.filter_eq_self.mpr]
    intro other hother
    simpa using ne_of_mem_of_not_mem hother hk

theorem firstOccurrences_eq_nil_iff {s : List String} : firstOccurrences s = [] ↔ s = [] := by
  cases s <;> simp [firstOccurrences]

/-- Setting a key leaves the other keys as they are. -/
theorem filter_keys_set (fields : List (String × α)) (key : String) (a : α) :
    (keys (set fields key a)).filter (· ≠ key) = (keys fields).filter (· ≠ key) := by
  induction fields with
  | nil => simp [set, keys]
  | cons entry rest ih =>
    obtain ⟨k, b⟩ := entry
    unfold set
    split
    · rfl
    · unfold keys at ih ⊢
      rw [List.map_cons, List.map_cons, List.filter_cons, List.filter_cons, ih]

end Fields

namespace Inspectable

variable {V : Type} (view : Inspectable V)

/-- The walk up the prototypes of a value ends, and gives its inherited keys. -/
def Walks : Prop := ∀ v, view.Gathers [] (view.prototype? v) (view.inheritedKeys v)

/-- `v` has the property, or the read of it fails. -/
def has (v : V) (key : String) : Bool :=
  match view.property v key with
  | .ok none => false
  | _ => true

/-- The type of `v` is none of an audio object that has any of the properties listed for it. -/
def IsPlain (v : V) : Prop :=
  ∀ listed, AudioProperties.find? (view.objectName v) = some listed →
    ∀ key ∈ listed, view.has v key = false

/-- The keys that `v` shows its properties by. -/
inductive ShowsKeys (view : Inspectable V) (v : V) : List String → Prop
  | audio {listed : List String} {key : String}
      (h : AudioProperties.find? (view.objectName v) = some listed) (hkey : key ∈ listed)
      (hhas : view.has v key = true) :
      ShowsKeys view v ((Fields.firstOccurrences listed).filter (view.has v))
  | own (h : view.IsPlain v) (hown : view.ownKeys v ≠ []) :
      ShowsKeys view v (Fields.firstOccurrences (view.ownKeys v))
  | inherited (h : view.IsPlain v) (hown : view.ownKeys v = []) :
      ShowsKeys view v (view.inheritedKeys v)

/-- The keys of an object that is not shown as an audio object. -/
def plainKeys (v : V) : List String :=
  if view.ownKeys v = [] then view.inheritedKeys v else Fields.firstOccurrences (view.ownKeys v)

/-- The keys with what their properties show inside of a path. -/
def slots (path : List V) (v : V) (keys : List String) : List (String × Snapshot) :=
  keys.map fun key => (key, view.slot path v key)

/-- What is added for the prototype of `v`: the properties that it shows one level deeper, if they
are more than those of `v`, under the name of its type. -/
def prototypeSlot? (path : List V) (v : V) : Option Snapshot := do
  let p ← view.prototype? v
  let shown ← (view.subtree (v :: path) p).props?
  if (view.plainKeys v).length < shown.length then some (.object (view.objectName p) shown)
  else none

/-- The entries of an object that is not shown as an audio object. -/
def plainEntries (path : List V) (v : V) : List (String × Snapshot) :=
  (view.prototypeSlot? path v).elim (view.slots path v (view.plainKeys v))
    (Fields.set (view.slots path v (view.plainKeys v)) prototypeKey)

variable {view}

/-! ## Inherited keys -/

theorem Gathers.exists_chain {keys result : List String} {current : Option V}
    (h : view.Gathers keys current result) :
    ∃ ps, view.Chain current ps ∧ result = gather keys (ps.flatMap view.ownKeys) := by
  induction h with
  | done keys => exact ⟨[], .done, rfl⟩
  | @next keys result p _ ih =>
    obtain ⟨ps, hps, rfl⟩ := ih
    refine ⟨p :: ps, .next hps, ?_⟩
    unfold gather
    rw [List.flatMap_cons, List.foldl_append]

/-- Inherited are the keys along the chain of prototypes, each where it occurs first. -/
theorem Walks.inheritedKeys_eq (h : view.Walks) (v : V) :
    ∃ ps, view.Chain (view.prototype? v) ps ∧
      view.inheritedKeys v = Fields.firstOccurrences (ps.flatMap view.ownKeys) := by
  obtain ⟨ps, hps, hkeys⟩ := (h v).exists_chain
  refine ⟨ps, hps, ?_⟩
  rw [hkeys, gather_eq, List.nil_append, List.filter_eq_self.mpr (by simp)]

theorem Walks.nodup_inheritedKeys (h : view.Walks) (v : V) : (view.inheritedKeys v).Nodup := by
  obtain ⟨ps, -, hkeys⟩ := h.inheritedKeys_eq v
  rw [hkeys]
  exact Fields.nodup_firstOccurrences _

theorem Walks.nodup_plainKeys (h : view.Walks) (v : V) : (view.plainKeys v).Nodup := by
  unfold plainKeys
  split
  · exact h.nodup_inheritedKeys v
  · exact Fields.nodup_firstOccurrences _

/-! ## The entries of an object -/

section Entries

variable {path : List V} {v : V}

theorem keys_slots (keys : List String) : Fields.keys (view.slots path v keys) = keys := by
  unfold Fields.keys slots
  rw [List.map_map]
  exact List.map_id keys

theorem mem_slots {keys : List String} {entry : String × Snapshot}
    (h : entry ∈ view.slots path v keys) : entry.2 = view.slot path v entry.1 := by
  obtain ⟨key, -, rfl⟩ := List.mem_map.mp h
  rfl

theorem readPresent_eq (keys : List String) :
    (view.readPresent (m := Id) (view.subtree (v :: path)) v keys).run =
      view.slots path v (keys.filter (view.has v)) := by
  induction keys with
  | nil => rfl
  | cons key keys ih =>
    rw [run_readPresent_cons, ih, readSlot?_eq, List.filter_cons]
    unfold has slots
    cases view.property v key with
    | error reason => rfl
    | ok found => cases found <;> rfl

theorem plainProps_eq (hview : view.Walks) :
    (view.plainProps (m := Id) (view.subtree (v :: path)) v).run =
      view.slots path v (view.plainKeys v) := by
  rw [run_plainProps]
  unfold plainKeys slots
  by_cases hown : view.ownKeys v = []
  · rw [hown, if_pos rfl, readAll_eq, readAll_eq,
      Fields.firstOccurrences_of_nodup (hview.nodup_inheritedKeys v)]
    rfl
  · rw [readAll_eq, readAll_eq, if_neg hown, if_neg]
    rw [List.isEmpty_iff, List.map_eq_nil_iff, Fields.firstOccurrences_eq_nil_iff]
    exact hown

theorem curatedProps_eq :
    (view.curatedProps (m := Id) (view.subtree (v :: path)) v).run =
      view.slots path v ((Fields.firstOccurrences
        ((AudioProperties.find? (view.objectName v)).getD [])).filter (view.has v)) := by
  unfold curatedProps
  cases AudioProperties.find? (view.objectName v) with
  | none => rfl
  | some listed => exact readPresent_eq _

theorem length_slots (keys : List String) : (view.slots path v keys).length = keys.length :=
  List.length_map _

theorem withPrototype_eq :
    (view.withPrototype (m := Id) (view.subtree (v :: path)) v
      (view.slots path v (view.plainKeys v))).run = view.plainEntries path v := by
  rw [run_withPrototype]
  unfold plainEntries prototypeSlot?
  cases view.prototype? v with
  | none => rfl
  | some p =>
    dsimp only [bind, Option.bind_some]
    cases (view.subtree (v :: path) p).props? with
    | none => rfl
    | some shown =>
      dsimp only [Option.bind_some]
      rw [length_slots]
      split <;> rfl

/-- An object is shown as an audio object, or else with what its prototype adds. -/
theorem expanded_cases (hview : view.Walks) (path : List V) (hkind : view.kind v = .object) :
    (¬view.IsPlain v ∧ ∃ keys, view.ShowsKeys v keys ∧
      view.expanded path v = .object (view.objectName v) (view.slots path v keys)) ∨
    (view.IsPlain v ∧
      view.expanded path v = .object (view.objectName v) (view.plainEntries path v)) := by
  rw [expanded_eq_object hkind, curatedProps_eq, plainProps_eq hview, withPrototype_eq]
  by_cases hplain : view.IsPlain v
  · have hnone : (Fields.firstOccurrences
        ((AudioProperties.find? (view.objectName v)).getD [])).filter (view.has v) = [] := by
      refine List.filter_eq_nil_iff.mpr fun key hkey => ?_
      rw [Fields.mem_firstOccurrences] at hkey
      cases hfind : AudioProperties.find? (view.objectName v) with
      | none =>
        rw [hfind] at hkey
        cases hkey
      | some listed =>
        rw [hfind] at hkey
        simp [hplain listed hfind key hkey]
    rw [hnone]
    exact .inr ⟨hplain, rfl⟩
  · refine .inl ⟨hplain, ?_⟩
    unfold IsPlain at hplain
    push Not at hplain
    obtain ⟨listed, hfind, key, hkey, hhas⟩ := hplain
    rw [ne_eq, Bool.not_eq_false] at hhas
    have hmem : key ∈ (Fields.firstOccurrences listed).filter (view.has v) :=
      List.mem_filter.mpr ⟨Fields.mem_firstOccurrences.mpr hkey, hhas⟩
    rw [hfind, Option.getD_some, if_neg]
    · exact ⟨_, .audio hfind hkey hhas, rfl⟩
    · rw [List.isEmpty_iff, slots, List.map_eq_nil_iff]
      exact List.ne_nil_of_mem hmem

theorem IsPlain.showsKeys (h : view.IsPlain v) : view.ShowsKeys v (view.plainKeys v) := by
  unfold plainKeys
  split
  · next hown => exact .inherited h hown
  · next hown => exact .own h hown

theorem ShowsKeys.nodup (hview : view.Walks) {keys : List String} (h : view.ShowsKeys v keys) :
    keys.Nodup := by
  cases h with
  | audio _ _ _ => exact (Fields.nodup_firstOccurrences _).filter _
  | own _ _ => exact Fields.nodup_firstOccurrences _
  | inherited _ _ => exact hview.nodup_inheritedKeys v

/-- The entries by the keys, as far as the key of the prototype is not concerned. -/
structure ShowsSlots (view : Inspectable V) (path : List V) (v : V) (keys : List String)
    (props : List (String × Snapshot)) : Prop where
  nodup : (Fields.keys props).Nodup
  keys : (Fields.keys props).filter (· ≠ prototypeKey) = keys.filter (· ≠ prototypeKey)
  values : ∀ key shown, (key, shown) ∈ props → key ≠ prototypeKey →
    shown = view.slot path v key

theorem showsSlots_slots {keys : List String} (h : keys.Nodup) :
    ShowsSlots view path v keys (view.slots path v keys) where
  nodup := by rwa [keys_slots]
  keys := by rw [keys_slots]
  values _ _ hentry _ := mem_slots hentry

theorem ShowsSlots.set {keys : List String} {props : List (String × Snapshot)}
    (h : ShowsSlots view path v keys props) (slot : Snapshot) :
    ShowsSlots view path v keys (Fields.set props prototypeKey slot) where
  nodup := Fields.nodup_keys_set _ _ h.nodup
  keys := by rw [Fields.filter_keys_set, h.keys]
  values key shown hentry hkey := by
    rcases Fields.mem_set hentry with hentry | heq
    · exact h.values key shown hentry hkey
    · exact absurd (congrArg Prod.fst heq) hkey

theorem showsSlots_plainEntries (hview : view.Walks) :
    ShowsSlots view path v (view.plainKeys v) (view.plainEntries path v) := by
  have hslots : ShowsSlots view path v (view.plainKeys v) (view.slots path v (view.plainKeys v)) :=
    showsSlots_slots (hview.nodup_plainKeys v)
  unfold plainEntries
  cases view.prototypeSlot? path v with
  | none => exact hslots
  | some slot => exact hslots.set slot

end Entries

/-! ## The visits of an inspection -/

/-- The root is visited on the empty path, so it is not circular. -/
theorem exists_root_visit (view : Inspectable V) (root : V) :
    ∃ visit ∈ (view.record root).2, visit.path = [] ∧ visit.value = root ∧
      ¬visit.shown.IsCircular := by
  obtain ⟨visit, hvisit, hpath, hvalue⟩ :
      ∃ visit ∈ (view.record root).2, visit.path = [] ∧ visit.value = root :=
    ⟨_, List.mem_cons_self, rfl, rfl⟩
  refine ⟨visit, hvisit, hpath, hvalue, ?_⟩
  rw [((record_exact view root).2 visit hvisit).shown, hpath,
    isCircular_subtree_iff (Nat.zero_le _)]
  rintro ⟨-, a, ha, -⟩
  cases ha

/-- An object that is looked into shows exactly its properties. Besides the key of the prototype,
its keys are, in order and none of them twice, the properties listed for audio objects of its type
that it has or that fail, if there are any; if not, its own keys, if there are any; if not, the
keys that it inherits, which are those along its chain of prototypes, each where it occurs first.
The value of a key is what the property holds as it is shown one level deeper, `undefined` if
there is no such property, and the placeholder with the reason if it cannot be read. -/
theorem record_shows_properties (view : Inspectable V) (hview : view.Walks) (root : V) :
    (∀ v, ∃ ps, view.Chain (view.prototype? v) ps ∧
        view.inheritedKeys v = Fields.firstOccurrences (ps.flatMap view.ownKeys)) ∧
      ∀ visit ∈ (view.record root).2, view.kind visit.value = .object →
        visit.path.length ≤ maxDepth → ¬visit.shown.IsCircular →
        ∃ keys props, visit.shown = .object (view.objectName visit.value) props ∧
          view.ShowsKeys visit.value keys ∧ ShowsSlots view visit.path visit.value keys props := by
  refine ⟨hview.inheritedKeys_eq, fun visit hvisit hkind hdepth hcircular => ?_⟩
  have hshown := ((record_exact view root).2 visit hvisit).shown
  have hcontainer : view.IsContainer visit.value := by
    unfold IsContainer
    rw [hkind]
    rfl
  rw [hshown] at hcircular ⊢
  rw [subtree_of_not_isCircular hdepth hcontainer hcircular]
  rcases expanded_cases hview visit.path hkind with
    ⟨-, keys, hkeys, hexpanded⟩ | ⟨hplain, hexpanded⟩
  · exact ⟨keys, _, hexpanded, hkeys, showsSlots_slots (hkeys.nodup hview)⟩
  · exact ⟨_, _, hexpanded, hplain.showsKeys, showsSlots_plainEntries hview⟩

end Inspectable

/-- The walk up the prototypes ends at once where none but `base`, which has none, is one. -/
theorem Heap.walks_of_base {h : Heap} (base : Value) (hbase : h.prototype? base = none)
    (hall : ∀ o ∈ h, o.prototype = none ∨ o.prototype = some base) : h.view.Walks := by
  refine (Heap.grounded_view fun v => ?_).gathers
  have hproto : h.view.prototype? v = none ∨ h.view.prototype? v = some base := by
    cases hp : h.view.prototype? v with
    | none => exact .inl rfl
    | some p =>
      obtain ⟨o, ho, hprototype⟩ := Option.bind_eq_some_iff.mp hp
      rw [← hprototype]
      exact hall o (mem_of_object? ho)
  rcases hproto with hproto | hproto
  · rw [hproto]
    exact ⟨[], .done⟩
  · rw [hproto]
    refine ⟨[base], .next ?_⟩
    have hend : h.view.prototype? base = none := hbase
    rw [hend]
    exact .done

namespace Inspectable

/-- A node that fails to tell one of the properties listed for its type, and lacks most others. -/
def mixer : Heap :=
  [{ HeapObject.plain "GainNode" [("label", .string "main"), ("gain", .ref 1)] with
      hidden := [("channelCount", .failing "closed")]
      prototype := some (.ref 1) },
    .plain "AudioParam" []]

theorem mixer_shows_properties :
    mixer.view.Walks ∧ ∃ visit ∈ (mixer.view.record (.ref 0)).2,
      mixer.view.kind visit.value = .object ∧ visit.path.length ≤ maxDepth ∧
      ¬visit.shown.IsCircular ∧
      ∃ keys props, visit.shown = .object "GainNode" props ∧
        mixer.view.ShowsKeys (.ref 0) keys ∧ ShowsSlots mixer.view [] (.ref 0) keys props := by
  have hview : mixer.view.Walks := Heap.walks_of_base (.ref 1) rfl (by decide)
  obtain ⟨visit, hvisit, hpath, hvalue, hcircular⟩ := exists_root_visit mixer.view (.ref 0)
  have hkind : mixer.view.kind visit.value = .object := by
    rw [hvalue]
    rfl
  have hdepth : visit.path.length ≤ maxDepth := by
    rw [hpath]
    exact Nat.zero_le _
  obtain ⟨keys, props, hshown, hkeys, hslots⟩ :=
    (record_shows_properties mixer.view hview (.ref 0)).2 visit hvisit hkind hdepth hcircular
  rw [hvalue] at hshown hkeys hslots
  rw [hpath] at hslots
  exact ⟨hview, visit, hvisit, hkind, hdepth, hcircular, keys, props, hshown, hkeys, hslots⟩

end Inspectable

end SnippetRunner
