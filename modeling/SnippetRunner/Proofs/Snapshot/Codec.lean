import SnippetRunner.Proofs.Inspect.Tree
import SnippetRunner.Proofs.Number.Double
import SnippetRunner.Snapshot.Codec

/-
  What encoding keeps. A snapshot that is well formed is decoded to itself, but for the sign of a
  zero (`decode_encode`), and decoding and inspecting give nothing but well-formed snapshots
  (`wellFormed_decode`, `wellFormed_inspect`).
-/
namespace SnippetRunner.Snapshot

open Text

/-- The numbers that are not finite are encoded by these names. -/
def specialNames : List String := ["NaN", "Infinity", "-Infinity"]

/-- A node that its encoding tells from all others. -/
def Sound : Snapshot → Prop
  | number d => d.isFinite = true → d.isIntegral = true
  | decimal text => text ∉ specialNames
  | _ => True

/-- Every finite number in the snapshot is whole, and no decimal text is a special name. -/
def WellFormed (s : Snapshot) : Prop := s.Everywhere Sound

mutual

/-- The snapshot without the signs of negative zeros. -/
def unsigned : Snapshot → Snapshot
  | number d => number d.unsignedZero
  | array length items => array length (unsignedItems items)
  | object name props => object name (unsignedProps props)
  | leaf => leaf

def unsignedItems : List Snapshot → List Snapshot
  | [] => []
  | item :: rest => unsigned item :: unsignedItems rest

def unsignedProps : List (String × Snapshot) → List (String × Snapshot)
  | [] => []
  | (key, value) :: rest => (key, unsigned value) :: unsignedProps rest

end

/-! ## Decoding an encoded snapshot -/

theorem decode_tagged (tag : String) (fields : List (String × Json)) :
    decode (tagged tag fields) = ofTag tag ((typeTag, .string tag) :: fields)
      (readFields ((typeTag, .string tag) :: fields)) := by
  simp [decode, tagged, reading, ofFields, Json.string?]

theorem numberNamed_of_not_mem {text : String} (h : text ∉ specialNames) :
    numberNamed text = decimal text := by
  simp only [specialNames, List.mem_cons, List.not_mem_nil, or_false, not_or] at h
  unfold numberNamed
  rw [if_neg h.1, if_neg h.2.1, if_neg h.2.2]

theorem ofName_name (state : PromiseState) : PromiseState.ofName state.name = state := by
  cases state <;> decide

theorem decode_double {d : Double} (hfinite : d.isFinite = true) (h : d.isIntegral = true) :
    decode (.double d) = number d := by
  unfold Json.double JsonNumber.ofDouble?
  rw [dif_pos hfinite]
  show decodeNumber (.double d hfinite) = number d
  exact if_pos h

theorem unsignedZero_of_large {d : Double} {n : Int} (hn : d.toInt? = some n)
    (h : ¬n.natAbs ≤ maxSafeInteger) : d.unsignedZero = d := by
  unfold Double.unsignedZero
  refine if_neg fun hzero => h ?_
  rw [Double.eq_zero_of_isZero hn hzero]
  decide

theorem decode_encodeNumber {d : Double} (h : d.isFinite = true → d.isIntegral = true) :
    decode (encodeNumber d) = number d.unsignedZero := by
  cases d with
  | nan => rfl
  | infinite negative => cases negative <;> rfl
  | finite negative m q canonical =>
    obtain ⟨n, hn⟩ := Option.isSome_iff_exists.mp (h rfl)
    have hencode : encodeNumber (.finite negative m q canonical) =
        if n.natAbs ≤ maxSafeInteger then .number (.int n)
        else .double (.finite negative m q canonical) := by
      simp only [encodeNumber, hn]
    rw [hencode]
    split
    · have hint :
          (JsonNumber.int n).toDouble = (Double.finite negative m q canonical).unsignedZero :=
        Double.ofInt_of_toInt? hn
      show decodeNumber (.int n) = _
      rw [decodeNumber, hint, if_pos (Double.isIntegral_unsignedZero (h rfl))]
    · next hlarge =>
      rw [decode_double rfl (h rfl), unsignedZero_of_large hn hlarge]

mutual

theorem decode_encode_of_wellFormed : (s : Snapshot) → s.WellFormed → decode (encode s) = s.unsigned
  | number d, h => decode_encodeNumber ((everywhere_leaf rfl).mp h)
  | decimal text, h => by
    have htext : text ∉ specialNames := (everywhere_leaf rfl).mp h
    rw [encode, decode_tagged]
    simp [ofTag, textField, typeTag, numberNamed_of_not_mem htext, unsigned]
  | array length items, h => by
    have hitems := readItems_encodeItems items (everywhere_array.mp h).2
    rw [encode, decode_tagged]
    simp [ofTag, countField?, readingField, readFields, reading, typeTag, hitems, unsigned]
  | object name props, h => by
    have hprops := propsOf_readFields_encodeProps props (everywhere_object.mp h).2
    rw [encode, decode_tagged]
    simp [ofTag, readingField, readFields, reading, typeTag, hprops, unsigned]
  | null, _ | bool _, _ | string _, _ => rfl
  | undefined, _ | maxDepth, _ => rfl
  | promise state, _ => by
    rw [encode, decode_tagged]
    simp [ofTag, textField, typeTag, ofName_name, unsigned]
  | truncated count, _ => by
    rw [encode, decode_tagged]
    simp [ofTag, countField?, typeTag, unsigned]
  | function _, _ | symbol _, _ | circular _, _ | error _, _ => by
    rw [encode, decode_tagged]
    simp [ofTag, textField, typeTag, unsigned]

theorem readItems_encodeItems : (items : List Snapshot) → (∀ s ∈ items, s.WellFormed) →
    readItems (encodeItems items) = unsignedItems items
  | [], _ => rfl
  | item :: rest, h => by
    obtain ⟨hitem, hrest⟩ := List.forall_mem_cons.mp h
    have e := decode_encode_of_wellFormed item hitem
    rw [encodeItems, readItems, readItems_encodeItems rest hrest, unsignedItems, ← e]
    rfl

theorem propsOf_readFields_encodeProps : (props : List (String × Snapshot)) →
    (∀ entry ∈ props, entry.2.WellFormed) →
    Reading.propsOf (readFields (encodeProps props)) = unsignedProps props
  | [], _ => rfl
  | (key, value) :: rest, h => by
    obtain ⟨hvalue, hrest⟩ := List.forall_mem_cons.mp h
    have e := decode_encode_of_wellFormed value hvalue
    rw [unsignedProps, ← propsOf_readFields_encodeProps rest hrest, ← e]
    rfl

end

/-! ## Well-formed snapshots -/

theorem numeral_not_special {text : String} (h : Numeral text.toList) : text ∉ specialNames := by
  intro hmem
  have hnone : ∀ name ∈ specialNames, ¬Numeral name.toList := by decide
  exact hnone text hmem h

theorem wellFormed_decodeNumber (n : JsonNumber) : (decodeNumber n).WellFormed := by
  unfold decodeNumber
  dsimp only
  split
  · next h => exact (everywhere_leaf rfl).mpr fun _ => h
  · refine (everywhere_leaf rfl).mpr (numeral_not_special ?_)
    cases n with
    | int n => exact numeral_toString n
    | double d finite => exact Double.numeral_format finite _

theorem wellFormed_numberNamed (text : String) : (numberNamed text).WellFormed := by
  unfold numberNamed
  split
  · exact (everywhere_leaf rfl).mpr fun h => nomatch h
  · split
    · exact (everywhere_leaf rfl).mpr fun h => nomatch h
    · split
      · exact (everywhere_leaf rfl).mpr fun h => nomatch h
      · exact (everywhere_leaf rfl).mpr (by simp_all [Sound, specialNames])

/-- What a reading stands for is well formed in each of its parts. -/
structure Reading.WellFormed (r : Reading) : Prop where
  value : r.value.WellFormed
  items : ∀ s ∈ r.items, s.WellFormed
  props : ∀ entry ∈ r.props, entry.2.WellFormed

theorem Reading.wellFormed_leaf {s : Snapshot} (h : s.WellFormed) : (leaf s).WellFormed :=
  ⟨h, fun _ h => (nomatch h), fun _ h => (nomatch h)⟩

theorem wellFormed_object {name : String} {props : List (String × Snapshot)} :
    (object name props).WellFormed ↔ ∀ entry ∈ props, entry.2.WellFormed :=
  everywhere_object.trans (and_iff_right trivial)

theorem wellFormed_array {length : Nat} {items : List Snapshot} :
    (array length items).WellFormed ↔ ∀ s ∈ items, s.WellFormed :=
  everywhere_array.trans (and_iff_right trivial)

section Readings

variable {readings : List (String × Reading)} (h : ∀ entry ∈ readings, entry.2.WellFormed)

include h

theorem wellFormed_readingField (key : String) : (readingField readings key).WellFormed := by
  unfold readingField
  cases hget : Fields.get? readings key with
  | none => exact Reading.wellFormed_leaf ((everywhere_leaf rfl).mpr trivial)
  | some r => exact h _ (Fields.mem_of_get? hget)

theorem wellFormed_propsOf : ∀ entry ∈ Reading.propsOf readings, entry.2.WellFormed := by
  intro entry hentry
  obtain ⟨r, hr, rfl⟩ := List.mem_map.mp hentry
  exact (h r hr).value

theorem wellFormed_ofTag (tag : String) (fields : List (String × Json)) :
    (ofTag tag fields readings).WellFormed := by
  unfold ofTag
  split
  · exact (everywhere_leaf rfl).mpr trivial
  · exact wellFormed_numberNamed _
  · exact (everywhere_leaf rfl).mpr trivial
  · exact (everywhere_leaf rfl).mpr trivial
  · exact (everywhere_leaf rfl).mpr trivial
  · exact (everywhere_leaf rfl).mpr trivial
  · exact (everywhere_leaf rfl).mpr trivial
  · exact (everywhere_leaf rfl).mpr trivial
  · exact (everywhere_leaf rfl).mpr trivial
  · exact wellFormed_array.mpr (wellFormed_readingField h "items").items
  · exact wellFormed_object.mpr (wellFormed_readingField h "props").props
  · exact wellFormed_object.mpr (wellFormed_propsOf h)

theorem wellFormed_ofFields (fields : List (String × Json)) :
    (ofFields fields readings).WellFormed := by
  unfold ofFields
  split
  · exact wellFormed_ofTag h _ fields
  · exact wellFormed_object.mpr (wellFormed_propsOf h)

end Readings

mutual

theorem wellFormed_reading : (j : Json) → (reading j).WellFormed
  | .null | .bool _ | .string _ => Reading.wellFormed_leaf ((everywhere_leaf rfl).mpr trivial)
  | .number n => Reading.wellFormed_leaf (wellFormed_decodeNumber n)
  | .array items => by
    have hitems := wellFormed_readItems items
    exact ⟨wellFormed_array.mpr hitems, hitems, fun _ h => nomatch h⟩
  | .object fields => by
    have hreadings := wellFormed_readFields fields
    exact ⟨wellFormed_ofFields hreadings fields, fun _ h => (nomatch h),
      wellFormed_propsOf hreadings⟩

theorem wellFormed_readItems : (items : List Json) → ∀ s ∈ readItems items, s.WellFormed
  | [] => fun _ h => nomatch h
  | item :: rest =>
    List.forall_mem_cons.mpr ⟨(wellFormed_reading item).value, wellFormed_readItems rest⟩

theorem wellFormed_readFields : (fields : List (String × Json)) →
    ∀ entry ∈ readFields fields, entry.2.WellFormed
  | [] => fun _ h => nomatch h
  | (_, value) :: rest =>
    List.forall_mem_cons.mpr ⟨wellFormed_reading value, wellFormed_readFields rest⟩

end

/-- Whatever is decoded is well formed. -/
theorem wellFormed_decode (j : Json) : (decode j).WellFormed := (wellFormed_reading j).value

/-! ## Inspected values -/

/-- Digits, with a minus sign in front or none. -/
def IsInteger (s : String) : Prop :=
  ∃ digits : List Char, (∀ c ∈ digits, c.isDigit = true) ∧
    (s.toList = digits ∨ s.toList = '-' :: digits)

theorem numeral_of_isInteger {s : String} (h : IsInteger s) : Numeral s.toList := by
  obtain ⟨digits, hdigits, e | e⟩ := h
  · rw [e]
    exact numeral_digits hdigits
  · rw [e]
    exact numeral_cons.mpr ⟨by decide, numeral_digits hdigits⟩

theorem sound_ofDouble (d : Double) : (ofDouble d).Sound := by
  unfold ofDouble
  split
  · next h =>
    have hfinite : d.isFinite = true := (Bool.and_eq_true_iff.mp h).1
    refine numeral_not_special ?_
    unfold decimalText
    split <;> exact Double.numeral_format hfinite _
  · next h =>
    intro hfinite
    simpa [hfinite] using h

theorem sound_of_leaf? {kind : ValueKind} {s : Snapshot} (h : kind.leaf? = some s)
    (hdigits : ∀ digits, kind = .bigint digits → IsInteger digits) : s.Sound := by
  cases kind with
  | number d =>
    obtain rfl := Option.some.inj h
    exact sound_ofDouble d
  | bigint digits =>
    obtain rfl := Option.some.inj h
    exact numeral_not_special (numeral_of_isInteger (hdigits digits rfl))
  | array _ => cases h
  | object => cases h
  | _ =>
    obtain rfl := Option.some.inj h
    trivial

theorem composes_sound : Inspectable.Composes Sound where
  undefined := trivial
  string _ := trivial
  maxDepth := trivial
  object _ _ _ := trivial
  renamed _ _ _ _ := trivial

/-- What is met on the way from `root` is well formed if its big integers are written so. -/
theorem wellFormed_inspect {V : Type} (view : Inspectable V) (root : V)
    (hdigits : ∀ v digits, Relation.ReflTransGen view.Child root v →
      view.kind v = .bigint digits → IsInteger digits) : (view.inspect root).WellFormed := by
  have hinvariant : Inspectable.Invariant view Sound
      fun _ v => Relation.ReflTransGen view.Child root v := {
    composes := composes_sound
    step := fun hv hc => hv.tail hc
    leaf := fun hv hleaf => sound_of_leaf? hleaf fun digits => hdigits _ digits hv
    array := fun _ => ⟨fun _ _ _ => trivial, fun _ _ _ _ => trivial⟩
    circular := fun _ _ _ => trivial }
  rw [Inspectable.inspect_eq_tree]
  exact hinvariant.everywhere_tree .refl

/-! ## The codec -/

/-- Encoding loses nothing of a well-formed snapshot but the sign of a zero, and all that is
decoded or inspected is well formed; so what was decoded once is decoded again from its encoding. -/
theorem decode_encode :
    (∀ s : Snapshot, s.WellFormed → decode (encode s) = s.unsigned) ∧
      (∀ j, (decode j).WellFormed ∧ decode (encode (decode j)) = (decode j).unsigned) ∧
      ∀ {V : Type} (view : Inspectable V) (root : V),
        (∀ v digits, Relation.ReflTransGen view.Child root v →
          view.kind v = .bigint digits → IsInteger digits) → (view.inspect root).WellFormed := by
  refine ⟨decode_encode_of_wellFormed, fun j => ⟨wellFormed_decode j, ?_⟩, wellFormed_inspect⟩
  exact decode_encode_of_wellFormed _ (wellFormed_decode j)

/-- An object with the key of the tag and numbers of all kinds. -/
def assorted : Snapshot :=
  .object "Object" [
    ("__type", .array 2 [.number (.zero true), .decimal "0.5"]),
    ("value", .number .nan)]

/-- An array that holds one big integer. -/
def ofBigint : Heap := [.ofItems [.bigint "-12"]]

theorem wellFormed_assorted : assorted.WellFormed := by
  have hnumbers : ∀ s ∈ [number (.zero true), decimal "0.5"], s.WellFormed :=
    List.forall_mem_cons.mpr ⟨(everywhere_leaf rfl).mpr fun _ => Double.isIntegral_zero true,
      List.forall_mem_singleton.mpr ((everywhere_leaf rfl).mpr
        (show "0.5" ∉ specialNames by decide))⟩
  refine wellFormed_object.mpr (List.forall_mem_cons.mpr ⟨wellFormed_array.mpr hnumbers, ?_⟩)
  exact List.forall_mem_singleton.mpr ((everywhere_leaf rfl).mpr fun h => nomatch h)

theorem isInteger_ofBigint (v : Value) (digits : String)
    (hv : Relation.ReflTransGen ofBigint.view.Child (.ref 0) v)
    (hkind : ofBigint.view.kind v = .bigint digits) : IsInteger digits := by
  have hmem : v ∈ [Value.ref 0, .bigint "-12"] := Heap.mem_values_of_reachable hv
  simp only [List.mem_cons, List.not_mem_nil, or_false] at hmem
  rcases hmem with rfl | rfl
  · cases hkind
  · cases hkind
    exact ⟨['1', '2'], List.all_eq_true.mp (by decide), Or.inr (by decide)⟩

theorem decode_encode_assorted :
    (assorted.WellFormed ∧ decode (encode assorted) = assorted.unsigned) ∧
      (∀ v digits, Relation.ReflTransGen ofBigint.view.Child (.ref 0) v →
        ofBigint.view.kind v = .bigint digits → IsInteger digits) ∧
      (ofBigint.inspect (.ref 0)).WellFormed := by
  obtain ⟨hdecode, -, hinspect⟩ := decode_encode
  exact ⟨⟨wellFormed_assorted, hdecode assorted wellFormed_assorted⟩, isInteger_ofBigint,
    hinspect ofBigint.view (.ref 0) isInteger_ofBigint⟩

end SnippetRunner.Snapshot
