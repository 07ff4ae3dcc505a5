import SnippetRunner.Proofs.Json.Text
import SnippetRunner.Proofs.Snapshot.Codec

/-
  Sending snapshots as JSON text. Two levels of JSON stand for one level of a snapshot, so what is
  inspected is never cut off by the reader (`exchangeable_inspect`). Counts have to fit into 64
  bits, and doubles have to be read back from their text.
-/
namespace SnippetRunner

/-- A whole number beyond the safe ones is written as a double, and is to be read back. -/
def Double.ReadsBack (d : Double) : Prop :=
  ∀ n, d.toInt? = some n → Snapshot.maxSafeInteger < n.natAbs →
    ∀ finite : d.isFinite = true, (JsonNumber.double d finite).ReadsBack

namespace Snapshot

open Json

/-- A node whose encoding is read back as it is. -/
def Sendable : Snapshot → Prop
  | number d => d.ReadsBack
  | array length _ => length < twoPow 64
  | truncated count => count < twoPow 64
  | object _ props => (Fields.keys props).Nodup
  | _ => True

/-- The snapshot is decoded from the text of its encoding, of at most `levels` levels. -/
structure Exchangeable (levels : Nat) (s : Snapshot) : Prop where
  wellFormed : s.WellFormed
  readable : Readable levels s.encode

theorem Exchangeable.mono {levels levels' : Nat} {s : Snapshot} (h : s.Exchangeable levels)
    (hle : levels ≤ levels') : s.Exchangeable levels' :=
  ⟨h.wellFormed, h.readable.mono hle⟩

/-! ## Encodings -/

theorem readable_nat {levels n : Nat} (h : n < twoPow 64) : Readable levels (.nat n) := by
  refine .number (readsBack_int ?_ ?_)
  · have : (0 : Int) ≤ twoPow 63 := Int.natCast_nonneg _
    omega
  · exact_mod_cast h

theorem readable_tagged {levels : Nat} {tag : String} {fields : List (String × Json)}
    (hkeys : (typeTag :: Fields.keys fields).Nodup)
    (h : ∀ entry ∈ fields, Readable levels entry.2) :
    Readable (levels + 1) (tagged tag fields) :=
  .object hkeys (List.forall_mem_cons.mpr ⟨.string tag, h⟩)

theorem readable_encodeNumber {levels : Nat} {d : Double}
    (hsound : d.isFinite = true → d.isIntegral = true) (h : d.ReadsBack) :
    Readable (levels + 1) (encodeNumber d) := by
  have hspecial (name : String) : Readable (levels + 1)
      (.object [(typeTag, .string "number"), ("value", .string name)]) :=
    readable_tagged (show [typeTag, "value"].Nodup by decide)
      (List.forall_mem_singleton.mpr (.string name))
  cases d with
  | nan => exact hspecial _
  | infinite negative => exact hspecial _
  | finite negative m q canonical =>
    obtain ⟨n, hn⟩ := Option.isSome_iff_exists.mp (hsound rfl)
    simp only [encodeNumber, hn]
    split
    · next hsmall =>
      have hsafe : maxSafeInteger < twoPow 63 := by decide
      have h64 : twoPow 63 < twoPow 64 := by decide
      exact .number (readsBack_int (by omega) (by omega))
    · next hlarge =>
      exact .number (h n hn (by omega) rfl)

theorem mem_encodeItems {items : List Snapshot} {j : Json} (h : j ∈ encodeItems items) :
    ∃ s ∈ items, s.encode = j := by
  induction items with
  | nil => cases h
  | cons item rest ih =>
    rcases List.mem_cons.mp h with rfl | h
    · exact ⟨item, List.mem_cons_self .., rfl⟩
    · obtain ⟨s, hs, e⟩ := ih h
      exact ⟨s, List.mem_cons_of_mem _ hs, e⟩

theorem mem_encodeProps {props : List (String × Snapshot)} {entry : String × Json}
    (h : entry ∈ encodeProps props) : ∃ prop ∈ props, prop.2.encode = entry.2 := by
  induction props with
  | nil => cases h
  | cons prop rest ih =>
    rcases List.mem_cons.mp h with rfl | h
    · exact ⟨prop, List.mem_cons_self .., rfl⟩
    · obtain ⟨s, hs, e⟩ := ih h
      exact ⟨s, List.mem_cons_of_mem _ hs, e⟩

theorem keys_encodeProps (props : List (String × Snapshot)) :
    Fields.keys (encodeProps props) = Fields.keys props := by
  induction props with
  | nil => rfl
  | cons prop rest ih => exact congrArg (prop.1 :: ·) ih

theorem readable_array {levels length : Nat} {items : List Snapshot} (hlength : length < twoPow 64)
    (h : ∀ s ∈ items, Readable levels s.encode) :
    Readable (levels + 2) (array length items).encode := by
  have hitems : Readable (levels + 1) (.array (encodeItems items)) := by
    refine .array fun j hj => ?_
    obtain ⟨s, hs, rfl⟩ := mem_encodeItems hj
    exact h s hs
  exact readable_tagged (show [typeTag, "length", "items"].Nodup by decide)
    (List.forall_mem_cons.mpr ⟨readable_nat hlength, List.forall_mem_singleton.mpr hitems⟩)

theorem readable_object {levels : Nat} {name : String} {props : List (String × Snapshot)}
    (hkeys : (Fields.keys props).Nodup) (h : ∀ entry ∈ props, Readable levels entry.2.encode) :
    Readable (levels + 2) (object name props).encode := by
  have hprops : Readable (levels + 1) (.object (encodeProps props)) := by
    refine .object (by rw [keys_encodeProps]; exact hkeys) fun entry he => ?_
    obtain ⟨prop, hprop, e⟩ := mem_encodeProps he
    rw [← e]
    exact h prop hprop
  exact readable_tagged (show [typeTag, "name", "props"].Nodup by decide)
    (List.forall_mem_cons.mpr ⟨.string name, List.forall_mem_singleton.mpr hprops⟩)

theorem readable_leaf {levels : Nat} {s : Snapshot} (hsound : s.Sound) (h : s.Sendable)
    (hheight : s.height = 0) : Readable (levels + 1) s.encode := by
  cases s with
  | null => exact .null
  | bool b => exact .bool b
  | number d => exact readable_encodeNumber hsound h
  | decimal text =>
    exact readable_tagged (show [typeTag, "value"].Nodup by decide)
      (List.forall_mem_singleton.mpr (.string text))
  | string s => exact .string s
  | undefined => exact readable_tagged (by decide) fun _ h => nomatch h
  | function name =>
    exact readable_tagged (show [typeTag, "name"].Nodup by decide)
      (List.forall_mem_singleton.mpr (.string name))
  | symbol description =>
    exact readable_tagged (show [typeTag, "description"].Nodup by decide)
      (List.forall_mem_singleton.mpr (.string description))
  | circular name =>
    exact readable_tagged (show [typeTag, "name"].Nodup by decide)
      (List.forall_mem_singleton.mpr (.string name))
  | maxDepth => exact readable_tagged (by decide) fun _ h => nomatch h
  | truncated count =>
    exact readable_tagged (show [typeTag, "count"].Nodup by decide)
      (List.forall_mem_singleton.mpr (readable_nat h))
  | error message =>
    exact readable_tagged (show [typeTag, "message"].Nodup by decide)
      (List.forall_mem_singleton.mpr (.string message))
  | promise state =>
    exact readable_tagged (show [typeTag, "state"].Nodup by decide)
      (List.forall_mem_singleton.mpr (.string state.name))
  | array length items => cases hheight
  | object name props => cases hheight

/-- Two levels of JSON stand for one of the snapshot, and one more for the marker of a leaf. -/
theorem readable_encode {n : Nat} {s : Snapshot} (hsound : s.WellFormed)
    (h : s.Everywhere Sendable) (hheight : s.height ≤ n) :
    Readable (2 * n + 1) s.encode := by
  have hself := mem_nodes_self s
  induction n generalizing s with
  | zero => exact readable_leaf (hsound s hself) (h s hself) (Nat.le_zero.mp hheight)
  | succ n ih =>
    cases s with
    | array length items =>
      obtain ⟨hlength, hitems⟩ := everywhere_array.mp h
      refine readable_array hlength fun s hs => ?_
      exact ih (wellFormed_array.mp hsound s hs) (hitems s hs)
        (height_array_le.mp hheight s hs) (mem_nodes_self s)
    | object name props =>
      obtain ⟨hkeys, hprops⟩ := everywhere_object.mp h
      refine readable_object hkeys fun entry he => ?_
      exact ih (wellFormed_object.mp hsound entry he) (hprops entry he)
        (height_object_le.mp hheight entry he) (mem_nodes_self entry.2)
    | _ => exact readable_leaf (hsound _ hself) (h _ hself) rfl

end Snapshot

/-! ## Inspected values -/

namespace Inspectable

variable {V : Type} {view : Inspectable V}

/-- The values met on the way from `root` can be sent: big integers are written as such, lengths
fit into 64 bits, and the text of a large whole number is read back. -/
structure Sendable (view : Inspectable V) (root : V) : Prop where
  bigint : ∀ {v digits}, Relation.ReflTransGen view.Child root v →
    view.kind v = .bigint digits → Snapshot.IsInteger digits
  length : ∀ {v length}, Relation.ReflTransGen view.Child root v →
    view.kind v = .array length → length < twoPow 64
  number : ∀ {v d}, Relation.ReflTransGen view.Child root v →
    view.kind v = .number d → d.ReadsBack

theorem composes_sendable : Composes Snapshot.Sendable where
  undefined := trivial
  string _ := trivial
  maxDepth := trivial
  object _ _ h := h
  renamed _ _ _ h := h

theorem sendable_of_leaf? {kind : ValueKind} {s : Snapshot} (h : kind.leaf? = some s)
    (hnumber : ∀ d, kind = .number d → d.ReadsBack) : s.Sendable := by
  cases kind with
  | number d =>
    obtain rfl := Option.some.inj h
    unfold Snapshot.ofDouble
    split
    · trivial
    · exact hnumber d rfl
  | array _ => cases h
  | object => cases h
  | _ =>
    obtain rfl := Option.some.inj h
    trivial

theorem Sendable.everywhere_inspect {root : V} (h : view.Sendable root) :
    (view.inspect root).Everywhere Snapshot.Sendable := by
  have hinvariant : Invariant view Snapshot.Sendable
      fun _ v => Relation.ReflTransGen view.Child root v := {
    composes := composes_sendable
    step := fun hv hc => hv.tail hc
    leaf := fun hv hleaf => sendable_of_leaf? hleaf fun d => h.number hv
    array := fun hv => ⟨fun _ _ hkind => h.length hv hkind,
      fun _ _ hkind hcount => Nat.lt_of_le_of_lt hcount (h.length hv hkind)⟩
    circular := fun _ _ _ => trivial }
  rw [inspect_eq_tree]
  exact hinvariant.everywhere_tree .refl

/-- What is inspected nests at most 23 levels deep as JSON. -/
theorem Sendable.exchangeable_inspect {root : V} (h : view.Sendable root) :
    (view.inspect root).Exchangeable 23 := by
  have hsound : (view.inspect root).WellFormed :=
    Snapshot.wellFormed_inspect view root fun v digits hv => h.bigint hv
  have hheight : (view.inspect root).height ≤ maxDepth + 1 := by
    rw [inspect_eq_tree]
    exact height_tree_le ..
  exact ⟨hsound, Snapshot.readable_encode hsound h.everywhere_inspect hheight⟩

end Inspectable

end SnippetRunner
