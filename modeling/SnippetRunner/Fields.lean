/-
  Ordered lists of keys and values. A key is looked up by its first occurrence, and a new value
  for it takes its place.
-/
namespace SnippetRunner.Fields

def get? {α : Type} (fields : List (String × α)) (key : String) : Option α :=
  (fields.find? (·.1 = key)).map Prod.snd

@[simp] theorem get?_nil {α : Type} (key : String) : get? ([] : List (String × α)) key = none := rfl

@[simp] theorem get?_cons {α : Type} (k : String) (a : α) (rest : List (String × α))
    (key : String) : get? ((k, a) :: rest) key = if k = key then some a else get? rest key := by
  unfold get?
  rw [List.find?_cons]
  by_cases h : k = key <;> simp [h]

theorem mem_of_get? {α : Type} {fields : List (String × α)} {key : String} {a : α}
    (h : get? fields key = some a) : (key, a) ∈ fields := by
  obtain ⟨entry, hfind, rfl⟩ := Option.map_eq_some_iff.mp h
  have hkey : entry.1 = key := by simpa using List.find?_some hfind
  rw [← hkey]
  exact List.mem_of_find?_eq_some hfind

/-- Sets the value of `key`: in its place if the key is there, at the end if not. -/
def set {α : Type} : List (String × α) → String → α → List (String × α)
  | [], key, value => [(key, value)]
  | (k, v) :: rest, key, value =>
    if k = key then (k, value) :: rest else (k, v) :: set rest key value

def keys {α : Type} (fields : List (String × α)) : List String := fields.map Prod.fst

theorem set_of_not_mem {α : Type} {fields : List (String × α)} {key : String} (a : α)
    (h : key ∉ keys fields) : set fields key a = fields ++ [(key, a)] := by
  induction fields with
  | nil => rfl
  | cons entry rest ih =>
    have hne : entry.1 ≠ key := fun hkey => h (by rw [← hkey]; exact List.mem_cons_self ..)
    have hrest : key ∉ keys rest := fun hmem => h (List.mem_cons_of_mem _ hmem)
    unfold set
    rw [if_neg hne, ih hrest]
    rfl

theorem keys_set_subset {α : Type} (fields : List (String × α)) (key : String) (a : α) :
    ∀ k ∈ keys (set fields key a), k ∈ keys fields ∨ k = key := by
  induction fields with
  | nil => simp [set, keys]
  | cons entry rest ih =>
    obtain ⟨k, b⟩ := entry
    unfold set
    split
    · next h =>
      intro k' hk'
      exact Or.inl (by simpa [keys] using hk')
    · intro k' hk'
      rcases List.mem_cons.mp hk' with rfl | hk'
      · exact Or.inl (List.mem_cons_self ..)
      · exact (ih k' hk').imp (List.mem_cons_of_mem _) id

/-- Setting a key keeps the keys distinct. -/
theorem nodup_keys_set {α : Type} {fields : List (String × α)} (key : String) (a : α)
    (h : (keys fields).Nodup) : (keys (set fields key a)).Nodup := by
  induction fields with
  | nil => simp [set, keys]
  | cons entry rest ih =>
    obtain ⟨k, b⟩ := entry
    obtain ⟨hk, hrest⟩ := List.nodup_cons.mp h
    unfold set
    split
    · exact h
    · next hne =>
      refine List.nodup_cons.mpr ⟨fun hmem => ?_, ih hrest⟩
      rcases keys_set_subset rest key a k hmem with hmem | rfl
      · exact hk hmem
      · exact hne rfl

theorem mem_set {α : Type} {fields : List (String × α)} {key : String} {a : α}
    {entry : String × α} (h : entry ∈ set fields key a) :
    entry ∈ fields ∨ entry = (key, a) := by
  induction fields with
  | nil =>
    obtain rfl := List.mem_singleton.mp h
    exact Or.inr rfl
  | cons first rest ih =>
    obtain ⟨k, b⟩ := first
    unfold set at h
    split at h
    · next hkey =>
      rcases List.mem_cons.mp h with rfl | h
      · exact Or.inr (by rw [hkey])
      · exact Or.inl (List.mem_cons_of_mem _ h)
    · rcases List.mem_cons.mp h with rfl | h
      · exact Or.inl (List.mem_cons_self ..)
      · exact (ih h).imp_left (List.mem_cons_of_mem _)

/-- The elements of a list, each where it occurs first. -/
def firstOccurrences : List String → List String
  | [] => []
  | key :: rest => key :: (firstOccurrences rest).filter (· ≠ key)

theorem mem_firstOccurrences {a : String} {s : List String} :
    a ∈ firstOccurrences s ↔ a ∈ s := by
  induction s with
  | nil => rfl
  | cons key rest ih =>
    by_cases h : a = key <;> simp [firstOccurrences, ih, h]

theorem nodup_firstOccurrences (s : List String) : (firstOccurrences s).Nodup := by
  induction s with
  | nil => exact List.nodup_nil
  | cons key rest ih =>
    rw [firstOccurrences, List.nodup_cons]
    exact ⟨by simp, ih.filter _⟩

end SnippetRunner.Fields
