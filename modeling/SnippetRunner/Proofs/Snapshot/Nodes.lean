import SnippetRunner.Snapshot

/-
  The nodes of a snapshot: the snapshot itself and every snapshot inside of it. What holds of all
  nodes is shown for the snapshots inside first.
-/
namespace SnippetRunner.Snapshot

mutual

def nodes : Snapshot → List Snapshot
  | array length items => array length items :: nodesOfItems items
  | object name props => object name props :: nodesOfProps props
  | leaf => [leaf]

def nodesOfItems : List Snapshot → List Snapshot
  | [] => []
  | item :: rest => nodes item ++ nodesOfItems rest

def nodesOfProps : List (String × Snapshot) → List Snapshot
  | [] => []
  | (_, value) :: rest => nodes value ++ nodesOfProps rest

end

theorem mem_nodesOfItems {t : Snapshot} {items : List Snapshot} :
    t ∈ nodesOfItems items ↔ ∃ s ∈ items, t ∈ s.nodes := by
  induction items with
  | nil => simp [nodesOfItems]
  | cons item rest ih => simp [nodesOfItems, ih]

theorem mem_nodesOfProps {t : Snapshot} {props : List (String × Snapshot)} :
    t ∈ nodesOfProps props ↔ ∃ entry ∈ props, t ∈ entry.2.nodes := by
  induction props with
  | nil => simp [nodesOfProps]
  | cons entry rest ih => simp [nodesOfProps, ih]

theorem mem_nodes_self (s : Snapshot) : s ∈ s.nodes := by
  cases s <;> simp [nodes]

/-- Every node of the snapshot satisfies `P`. -/
def Everywhere (P : Snapshot → Prop) (s : Snapshot) : Prop := ∀ t ∈ s.nodes, P t

variable {P : Snapshot → Prop}

theorem everywhere_array {length : Nat} {items : List Snapshot} :
    Everywhere P (array length items) ↔
      P (array length items) ∧ ∀ s ∈ items, s.Everywhere P := by
  unfold Everywhere
  simp only [nodes, List.forall_mem_cons, mem_nodesOfItems]
  refine and_congr_right fun _ => ⟨fun h s hs t ht => h t ⟨s, hs, ht⟩, ?_⟩
  rintro h t ⟨s, hs, ht⟩
  exact h s hs t ht

theorem everywhere_object {name : String} {props : List (String × Snapshot)} :
    Everywhere P (object name props) ↔
      P (object name props) ∧ ∀ entry ∈ props, entry.2.Everywhere P := by
  unfold Everywhere
  simp only [nodes, List.forall_mem_cons, mem_nodesOfProps]
  refine and_congr_right fun _ => ⟨fun h entry he t ht => h t ⟨entry, he, ht⟩, ?_⟩
  rintro h t ⟨entry, he, ht⟩
  exact h entry he t ht

theorem everywhere_leaf {s : Snapshot} (hleaf : s.nodes = [s]) : Everywhere P s ↔ P s := by
  simp [Everywhere, hleaf]

/-! ## Height -/

mutual

/-- The greatest number of arrays and objects that stand inside of each other. -/
def height : Snapshot → Nat
  | array _ items => heightOfItems items + 1
  | object _ props => heightOfProps props + 1
  | _ => 0

def heightOfItems : List Snapshot → Nat
  | [] => 0
  | item :: rest => max (height item) (heightOfItems rest)

def heightOfProps : List (String × Snapshot) → Nat
  | [] => 0
  | (_, value) :: rest => max (height value) (heightOfProps rest)

end

theorem heightOfItems_le {n : Nat} {items : List Snapshot} :
    heightOfItems items ≤ n ↔ ∀ s ∈ items, s.height ≤ n := by
  induction items with
  | nil => simp [heightOfItems]
  | cons item rest ih => rw [heightOfItems, Nat.max_le, ih, List.forall_mem_cons]

theorem heightOfProps_le {n : Nat} {props : List (String × Snapshot)} :
    heightOfProps props ≤ n ↔ ∀ entry ∈ props, entry.2.height ≤ n := by
  induction props with
  | nil => simp [heightOfProps]
  | cons entry rest ih => rw [heightOfProps, Nat.max_le, ih, List.forall_mem_cons]

theorem height_array_le {n length : Nat} {items : List Snapshot} :
    (array length items).height ≤ n + 1 ↔ ∀ s ∈ items, s.height ≤ n := by
  rw [height, Nat.add_le_add_iff_right, heightOfItems_le]

theorem height_object_le {n : Nat} {name : String} {props : List (String × Snapshot)} :
    (object name props).height ≤ n + 1 ↔ ∀ entry ∈ props, entry.2.height ≤ n := by
  rw [height, Nat.add_le_add_iff_right, heightOfProps_le]

end SnippetRunner.Snapshot
