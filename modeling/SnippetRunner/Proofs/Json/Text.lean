import SnippetRunner.Proofs.Json.Number

/-
  Reading back what was printed. The printed text of a value is read as the draft of that value
  (`readDraft_compactChars`), and a draft of few enough levels has the value itself
  (`value?_draft`), so the reader inverts the printer (`read?_compactChars`).
-/
namespace SnippetRunner.Json

open SnippetRunner.Text

/-! ## Strings -/

theorem hexNumber?_control : ∀ n < 32,
    hexNumber? ['0', '0', hexDigit (n / 16), hexDigit n] = some n := by decide

theorem readEscape_control {c : Char} (h : c.toNat < 32) (tail : List Char) :
    readEscape ('u' :: '0' :: '0' :: hexDigit (c.toNat / 16) :: hexDigit c.toNat :: tail) =
      some (some c, tail) := by
  have hhigh : ¬(55296 ≤ c.toNat ∧ c.toNat ≤ 56319) := by omega
  have hlow : ¬(56320 ≤ c.toNat ∧ c.toNat ≤ 57343) := by omega
  simp [readEscape, readUnicodeEscape, readHex4, hexNumber?_control _ h, hhigh, hlow,
    Char.ofNat_toNat]

/-- Puts a character in front of the text that was read. -/
def prepend (c : Char) : Option (List Char) × List Char → Option (List Char) × List Char
  | (text, rest) => (text.map (c :: ·), rest)

theorem readStringRest_plain {c : Char} (hquote : c ≠ '"') (hslash : c ≠ '\\')
    (hcontrol : 32 ≤ c.toNat) (fuel : Nat) (tail : List Char) :
    readStringRest (fuel + 1) (c :: tail) = (readStringRest fuel tail).map (prepend c) := by
  have hcontrol : ¬c.toNat < 32 := by omega
  rw [readStringRest, if_neg hquote, if_neg hcontrol, if_neg hslash]
  simp only [Option.bind_eq_bind, Option.bind_some]
  cases readStringRest fuel tail with
  | none => rfl
  | some read =>
    obtain ⟨text, rest⟩ := read
    cases text <;> rfl

theorem readStringRest_escape {c : Char} {s tail : List Char}
    (h : readEscape s = some (some c, tail)) (fuel : Nat) :
    readStringRest (fuel + 1) ('\\' :: s) = (readStringRest fuel tail).map (prepend c) := by
  rw [readStringRest, if_neg (by decide), if_neg (by decide), if_pos rfl, h]
  simp only [Option.bind_eq_bind, Option.bind_some]
  cases readStringRest fuel tail with
  | none => rfl
  | some read =>
    obtain ⟨text, rest⟩ := read
    cases text <;> rfl

theorem readStringRest_escaped (c : Char) (fuel : Nat) (tail : List Char) :
    readStringRest (fuel + 1) (escaped c ++ tail) =
      (readStringRest fuel tail).map (prepend c) := by
  unfold escaped
  split
  · next h => exact readStringRest_escape (by rw [h]; rfl) fuel
  · next hquote =>
  split
  · next h => exact readStringRest_escape (by rw [h]; rfl) fuel
  · next hslash =>
  split
  · next h => exact readStringRest_escape (by rw [h]; rfl) fuel
  split
  · next h => exact readStringRest_escape (by rw [h]; rfl) fuel
  split
  · next h => exact readStringRest_escape (by rw [h]; rfl) fuel
  split
  · next h => exact readStringRest_escape (by rw [h]; rfl) fuel
  split
  · next h => exact readStringRest_escape (by rw [h]; rfl) fuel
  split
  · next hcontrol => exact readStringRest_escape (readEscape_control hcontrol tail) fuel
  · next hcontrol => exact readStringRest_plain hquote hslash (by omega) fuel tail

theorem escaped_ne_nil (c : Char) : escaped c ≠ [] := by
  unfold escaped
  repeat' split
  all_goals simp

theorem readStringRest_flatMap {s : List Char} {fuel : Nat} (rest : List Char)
    (h : (s.flatMap escaped).length < fuel) :
    readStringRest fuel (s.flatMap escaped ++ '"' :: rest) = some (some s, rest) := by
  induction s generalizing fuel with
  | nil =>
    obtain ⟨fuel, rfl⟩ := Nat.exists_eq_add_of_lt h
    rfl
  | cons c s ih =>
    have hlength := List.length_pos_iff.mpr (escaped_ne_nil c)
    rw [List.flatMap_cons, List.length_append] at h
    obtain ⟨fuel, rfl⟩ : ∃ k, fuel = k + 1 := ⟨fuel - 1, by omega⟩
    rw [List.flatMap_cons, List.append_assoc, readStringRest_escaped, ih (by omega)]
    rfl

/-- A quoted string is read back, whatever follows it. -/
theorem readString_quoted (s : String) (rest : List Char) :
    readString (quoted s ++ rest) = some (some s, rest) := by
  have hquoted : quoted s ++ rest = '"' :: (s.toList.flatMap escaped ++ '"' :: rest) := by
    simp [quoted]
  have hlength : (s.toList.flatMap escaped).length <
      (s.toList.flatMap escaped ++ '"' :: rest).length := by
    rw [List.length_append, List.length_cons]
    omega
  have hread := readStringRest_flatMap rest hlength
  rw [hquoted, readString, hread]
  simp

/-! ## Drafts -/

mutual

/-- The draft that a value is read as. -/
def draft : Json → Draft
  | null => .null
  | bool b => .bool b
  | number n => .number (some n)
  | string s => .string (some s)
  | array items => .array (draftItems items)
  | object fields => .object (draftFields fields)

def draftItems : List Json → List Draft
  | [] => []
  | item :: rest => draft item :: draftItems rest

def draftFields : List (String × Json) → List (Option String × Draft)
  | [] => []
  | (key, value) :: rest => (some key, draft value) :: draftFields rest

end

/-- Values of at most `levels` levels of arrays and objects, whose keys are distinct and whose
numbers are read back. -/
inductive Readable : (levels : Nat) → Json → Prop
  | null {levels : Nat} : Readable levels .null
  | bool {levels : Nat} (b : Bool) : Readable levels (.bool b)
  | number {levels : Nat} {n : JsonNumber} (h : n.ReadsBack) : Readable levels (.number n)
  | string {levels : Nat} (s : String) : Readable levels (.string s)
  | array {levels : Nat} {items : List Json} (h : ∀ item ∈ items, Readable levels item) :
      Readable (levels + 1) (.array items)
  | object {levels : Nat} {fields : List (String × Json)} (hkeys : (Fields.keys fields).Nodup)
      (h : ∀ entry ∈ fields, Readable levels entry.2) : Readable (levels + 1) (.object fields)

/-- The characters that a value may begin with. -/
def beginsValue (c : Char) : Bool := c.isDigit || ['-', '"', '[', '{', 't', 'f', 'n'].contains c

theorem skipBlanks_of_beginsValue {c : Char} (h : beginsValue c = true) (s : List Char) :
    skipBlanks (c :: s) = c :: s := by
  refine List.dropWhile_cons_of_neg fun hblank => ?_
  simp only [isJsonBlank, Bool.or_eq_true, decide_eq_true_eq] at hblank
  rcases hblank with ((rfl | rfl) | rfl) | rfl <;> exact absurd h (by decide)

theorem head_of_readNumber {s : List Char} {read : Option JsonNumber × List Char}
    (h : readNumber s = some read) : ∃ c t, s = c :: t ∧ (c = '-' ∨ c.isDigit = true) := by
  cases s with
  | nil => cases h
  | cons c t =>
    refine ⟨c, t, rfl, ?_⟩
    by_cases hminus : c = '-'
    · exact Or.inl hminus
    · refine Or.inr ?_
      unfold readNumber at h
      split at h
      · next heq => exact absurd (List.cons.inj heq).1 hminus
      · refine Bool.of_not_eq_false fun hdigit => ?_
        simp [readMagnitude, spanDigits, hdigit] at h

theorem head_compactChars {levels : Nat} {j : Json} (h : Readable levels j) :
    ∃ c t, compactChars j = c :: t ∧ beginsValue c = true := by
  cases h with
  | null => exact ⟨'n', _, rfl, by decide⟩
  | bool b =>
    cases b
    · exact ⟨'f', _, rfl, by decide⟩
    · exact ⟨'t', _, rfl, by decide⟩
  | number h =>
    obtain ⟨c, t, hs, hc⟩ := head_of_readNumber h
    refine ⟨c, t, hs, ?_⟩
    rcases hc with rfl | hc
    · decide
    · rw [beginsValue, hc, Bool.true_or]
  | string s => exact ⟨'"', _, rfl, by decide⟩
  | array _ => exact ⟨'[', _, rfl, by decide⟩
  | object _ _ => exact ⟨'{', _, rfl, by decide⟩

theorem readDraft_number {s : List Char} {read : Option JsonNumber × List Char} (fuel : Nat)
    (h : readNumber s = some read) : readDraft (fuel + 1) s = some (.number read.1, read.2) := by
  obtain ⟨c, t, rfl, hc⟩ := head_of_readNumber h
  have hbegins : beginsValue c = true := by
    rcases hc with rfl | hc
    · decide
    · rw [beginsValue, hc, Bool.true_or]
  have hother (d : Char) (hd : d ≠ '-') (hdigit : d.isDigit = false) {u : List Char} :
      c :: t ≠ d :: u := by
    intro heq
    obtain ⟨rfl, -⟩ := List.cons.inj heq
    rcases hc with rfl | hc
    · exact hd rfl
    · rw [hdigit] at hc
      cases hc
  unfold readDraft
  rw [skipBlanks_of_beginsValue hbegins]
  split
  · next heq => exact absurd heq (hother '[' (by decide) (by decide))
  · next heq => exact absurd heq (hother '{' (by decide) (by decide))
  · next heq => exact absurd heq (hother '"' (by decide) (by decide))
  · next heq => exact absurd heq (hother 't' (by decide) (by decide))
  · next heq => exact absurd heq (hother 'f' (by decide) (by decide))
  · next heq => exact absurd heq (hother 'n' (by decide) (by decide))
  · rw [h]
    rfl

/-! ### Arrays and objects -/

/-- The value is read from its text as its draft, in at most twice as many steps as the text has
characters. -/
def ReadsDraft (j : Json) : Prop :=
  ∀ {fuel : Nat} {rest : List Char}, 2 * (compactChars j).length ≤ fuel → EndsNumber rest →
    readDraft fuel (compactChars j ++ rest) = some (j.draft, rest)

theorem readItems_itemsCompact {item : Json} {items : List Json}
    (h : ∀ j ∈ item :: items, ReadsDraft j) {fuel : Nat} (rest : List Char)
    (hfuel : 2 * (itemsCompact (item :: items)).length + 1 ≤ fuel) :
    readItems fuel (itemsCompact (item :: items) ++ ']' :: rest) =
      some (draftItems (item :: items), rest) := by
  obtain ⟨fuel, rfl⟩ : ∃ k, fuel = k + 1 := ⟨fuel - 1, by omega⟩
  obtain ⟨hitem, hitems⟩ := List.forall_mem_cons.mp h
  cases items with
  | nil =>
    rw [itemsCompact] at hfuel ⊢
    rw [readItems, hitem (by omega) (endsNumber_cons (by decide) rest)]
    rfl
  | cons next items =>
    have hcompact : itemsCompact (item :: next :: items) =
        compactChars item ++ ',' :: itemsCompact (next :: items) := rfl
    rw [hcompact, List.length_append, List.length_cons] at hfuel
    have hlength : 2 * (itemsCompact (next :: items)).length + 1 ≤ fuel := by omega
    have hrest := readItems_itemsCompact hitems rest hlength
    rw [hcompact, List.append_assoc, List.cons_append, readItems,
      hitem (by omega) (endsNumber_cons (by decide) _)]
    simp only [Option.bind_eq_bind, Option.bind_some, skipBlanks]
    show (readItems fuel _).bind _ = _
    rw [hrest]
    rfl

theorem readFields_fieldsCompact {entry : String × Json} {fields : List (String × Json)}
    (h : ∀ e ∈ entry :: fields, ReadsDraft e.2) {fuel : Nat} (rest : List Char)
    (hfuel : 2 * (fieldsCompact (entry :: fields)).length + 1 ≤ fuel) :
    readFields fuel (fieldsCompact (entry :: fields) ++ '}' :: rest) =
      some (draftFields (entry :: fields), rest) := by
  obtain ⟨fuel, rfl⟩ : ∃ k, fuel = k + 1 := ⟨fuel - 1, by omega⟩
  obtain ⟨key, value⟩ := entry
  obtain ⟨hvalue, hfields⟩ := List.forall_mem_cons.mp h
  have hvalue : ReadsDraft value := hvalue
  have hkey (tail : List Char) : skipBlanks (quoted key ++ tail) = quoted key ++ tail :=
    skipBlanks_of_beginsValue (by decide) _
  cases fields with
  | nil =>
    have hcompact : fieldsCompact [(key, value)] = quoted key ++ ':' :: compactChars value := rfl
    rw [hcompact, List.length_append, List.length_cons] at hfuel
    rw [hcompact, List.append_assoc, List.cons_append, readFields, hkey, readString_quoted]
    simp only [Option.bind_eq_bind, Option.bind_some]
    show (readDraft fuel _).bind _ = _
    rw [hvalue (by omega) (endsNumber_cons (by decide) rest)]
    rfl
  | cons next fields =>
    have hcompact : fieldsCompact ((key, value) :: next :: fields) =
        quoted key ++ ':' :: compactChars value ++ ',' :: fieldsCompact (next :: fields) := rfl
    rw [hcompact, List.length_append, List.length_append, List.length_cons,
      List.length_cons] at hfuel
    have hlength : 2 * (fieldsCompact (next :: fields)).length + 1 ≤ fuel := by omega
    have hrest := readFields_fieldsCompact hfields rest hlength
    rw [hcompact, List.append_assoc, List.append_assoc, List.cons_append, List.cons_append,
      readFields, hkey, readString_quoted]
    simp only [Option.bind_eq_bind, Option.bind_some]
    show (readDraft fuel _).bind _ = _
    rw [hvalue (by omega) (endsNumber_cons (by decide) _)]
    show (readFields fuel _).bind _ = _
    rw [hrest]
    rfl

theorem readDraft_array {c : Char} (h : beginsValue c = true) (fuel : Nat) (s : List Char) :
    readDraft (fuel + 1) ('[' :: c :: s) =
      (readItems fuel (c :: s)).map fun (items, rest) => (.array items, rest) := by
  have hclose : c ≠ ']' := fun hc => absurd h (by rw [hc]; decide)
  have hopen : beginsValue '[' = true := by decide
  simp only [readDraft, skipBlanks_of_beginsValue hopen, skipBlanks_of_beginsValue h]
  split
  · next heq => exact absurd (List.cons.inj heq).1 hclose
  · rfl

theorem readDraft_object {c : Char} (h : beginsValue c = true) (fuel : Nat) (s : List Char) :
    readDraft (fuel + 1) ('{' :: c :: s) =
      (readFields fuel (c :: s)).map fun (fields, rest) => (.object fields, rest) := by
  have hclose : c ≠ '}' := fun hc => absurd h (by rw [hc]; decide)
  have hopen : beginsValue '{' = true := by decide
  simp only [readDraft, skipBlanks_of_beginsValue hopen, skipBlanks_of_beginsValue h]
  split
  · next heq => exact absurd (List.cons.inj heq).1 hclose
  · rfl

theorem readsDraft_array {items : List Json}
    (hhead : ∀ item ∈ items, ∃ c t, compactChars item = c :: t ∧ beginsValue c = true)
    (h : ∀ item ∈ items, ReadsDraft item) : ReadsDraft (.array items) := by
  intro fuel rest hfuel _
  cases items with
  | nil =>
    obtain ⟨fuel, rfl⟩ : ∃ k, fuel = k + 1 := ⟨fuel - 1, by have : 4 ≤ fuel := hfuel; omega⟩
    rfl
  | cons item items =>
    obtain ⟨c, t, hc, hbegins⟩ := hhead item (List.mem_cons_self ..)
    obtain ⟨u, hu⟩ : ∃ u, itemsCompact (item :: items) = c :: u := by
      cases items with
      | nil => exact ⟨t, hc⟩
      | cons next items => exact ⟨_, congrArg (· ++ _) hc⟩
    have htext : compactChars (.array (item :: items)) ++ rest =
        '[' :: c :: (u ++ ']' :: rest) := by
      rw [compactChars, hu]
      simp
    have hlength : (compactChars (.array (item :: items))).length =
        (itemsCompact (item :: items)).length + 2 := by
      rw [compactChars]
      simp
    obtain ⟨fuel, rfl⟩ : ∃ k, fuel = k + 1 := ⟨fuel - 1, by omega⟩
    have hitems : 2 * (itemsCompact (item :: items)).length + 1 ≤ fuel := by omega
    have hread := readItems_itemsCompact h rest hitems
    rw [hu] at hread
    rw [htext, readDraft_array hbegins, ← List.cons_append, hread]
    rfl

theorem readsDraft_object {fields : List (String × Json)}
    (h : ∀ entry ∈ fields, ReadsDraft entry.2) : ReadsDraft (.object fields) := by
  intro fuel rest hfuel _
  cases fields with
  | nil =>
    obtain ⟨fuel, rfl⟩ : ∃ k, fuel = k + 1 := ⟨fuel - 1, by have : 4 ≤ fuel := hfuel; omega⟩
    rfl
  | cons entry fields =>
    obtain ⟨u, hu⟩ : ∃ u, fieldsCompact (entry :: fields) = '"' :: u := by
      cases fields with
      | nil => exact ⟨_, rfl⟩
      | cons next fields => exact ⟨_, rfl⟩
    have htext : compactChars (.object (entry :: fields)) ++ rest =
        '{' :: '"' :: (u ++ '}' :: rest) := by
      rw [compactChars, hu]
      simp
    have hlength : (compactChars (.object (entry :: fields))).length =
        (fieldsCompact (entry :: fields)).length + 2 := by
      rw [compactChars]
      simp
    obtain ⟨fuel, rfl⟩ : ∃ k, fuel = k + 1 := ⟨fuel - 1, by omega⟩
    have hfields : 2 * (fieldsCompact (entry :: fields)).length + 1 ≤ fuel := by omega
    have hread := readFields_fieldsCompact h rest hfields
    rw [hu] at hread
    rw [htext, readDraft_object (by decide), ← List.cons_append, hread]
    rfl

theorem readsDraft_of_readable {levels : Nat} {j : Json} (h : Readable levels j) :
    ReadsDraft j := by
  induction h with
  | null =>
    intro fuel rest hfuel _
    obtain ⟨fuel, rfl⟩ : ∃ k, fuel = k + 1 := ⟨fuel - 1, by have : 8 ≤ fuel := hfuel; omega⟩
    rfl
  | bool b =>
    intro fuel rest hfuel _
    obtain ⟨fuel, rfl⟩ : ∃ k, fuel = k + 1 :=
      ⟨fuel - 1, by have : 4 ≤ (compactChars (.bool b)).length := by cases b <;> decide
                    omega⟩
    cases b <;> rfl
  | @number levels n h =>
    intro fuel rest hfuel hrest
    obtain ⟨c, t, hs, -⟩ := head_of_readNumber h
    obtain ⟨fuel, rfl⟩ : ∃ k, fuel = k + 1 := by
      rw [compactChars, hs, List.length_cons] at hfuel
      exact ⟨fuel - 1, by omega⟩
    exact readDraft_number fuel (readNumber_append hrest h)
  | string s =>
    intro fuel rest hfuel _
    obtain ⟨fuel, rfl⟩ : ∃ k, fuel = k + 1 := by
      rw [compactChars, quoted] at hfuel
      exact ⟨fuel - 1, by simp at hfuel; omega⟩
    show (readString (quoted s ++ rest)).map _ = _
    rw [readString_quoted]
    rfl
  | array h ih => exact readsDraft_array (fun item hitem => head_compactChars (h item hitem)) ih
  | object _ _ ih => exact readsDraft_object ih

theorem draftRead?_compactChars {levels : Nat} {j : Json} (h : Readable levels j) :
    Draft.read? (compactChars j) = some j.draft := by
  have hend : EndsNumber [] := fun _ hc => nomatch hc
  have hread := readsDraft_of_readable h (Nat.le_add_right (2 * (compactChars j).length) 2) hend
  rw [List.append_nil] at hread
  rw [Draft.read?, hread]
  rfl

/-! ## Values -/

theorem itemValues?_draftItems {levels : Nat} {items : List Json}
    (h : ∀ item ∈ items, Draft.value? levels item.draft = some item) :
    Draft.itemValues? levels (draftItems items) = some items := by
  induction items with
  | nil => rfl
  | cons item items ih =>
    obtain ⟨hitem, hitems⟩ := List.forall_mem_cons.mp h
    rw [draftItems, Draft.itemValues?, hitem, ih hitems]
    rfl

theorem fieldValues?_draftFields {levels : Nat} {before fields : List (String × Json)}
    (hkeys : (Fields.keys (before ++ fields)).Nodup)
    (h : ∀ entry ∈ fields, Draft.value? levels entry.2.draft = some entry.2) :
    Draft.fieldValues? levels before (draftFields fields) = some (before ++ fields) := by
  induction fields generalizing before with
  | nil => rw [List.append_nil]; rfl
  | cons entry fields ih =>
    obtain ⟨key, value⟩ := entry
    obtain ⟨hvalue, hfields⟩ := List.forall_mem_cons.mp h
    have hvalue : Draft.value? levels value.draft = some value := hvalue
    have hfresh : key ∉ Fields.keys before := by
      intro hmem
      rw [Fields.keys, List.map_append, List.nodup_append] at hkeys
      exact hkeys.2.2 key hmem key (List.mem_cons_self ..) rfl
    have hset : Fields.set before key value ++ fields = before ++ (key, value) :: fields := by
      rw [Fields.set_of_not_mem value hfresh, List.append_assoc]
      rfl
    rw [draftFields, Draft.fieldValues?, hvalue, ← hset]
    exact ih (by rw [hset]; exact hkeys) hfields

theorem value?_draft {levels : Nat} {j : Json} (h : Readable levels j) :
    Draft.value? levels j.draft = some j := by
  induction h with
  | null => rfl
  | bool b => rfl
  | number _ => rfl
  | string s => rfl
  | array _ ih =>
    rw [draft, Draft.value?, itemValues?_draftItems ih]
    rfl
  | @object levels fields hkeys _ ih =>
    have hfields : Draft.fieldValues? levels [] (draftFields fields) = some fields :=
      fieldValues?_draftFields hkeys ih
    rw [draft, Draft.value?, hfields]
    rfl

theorem Readable.mono {levels levels' : Nat} {j : Json} (h : Readable levels j)
    (hle : levels ≤ levels') : Readable levels' j := by
  induction h generalizing levels' with
  | null => exact .null
  | bool b => exact .bool b
  | number h => exact .number h
  | string s => exact .string s
  | array _ ih =>
    obtain ⟨levels', rfl⟩ : ∃ k, levels' = k + 1 := ⟨levels' - 1, by omega⟩
    exact .array fun item hitem => ih item hitem (by omega)
  | object hkeys _ ih =>
    obtain ⟨levels', rfl⟩ : ∃ k, levels' = k + 1 := ⟨levels' - 1, by omega⟩
    exact .object hkeys fun entry hentry => ih entry hentry (by omega)

/-- The reader inverts the printer on values that do not nest too deep. -/
theorem read?_compactChars {j : Json} (h : Readable maxLevels j) :
    Json.read? (compactChars j) = some j := by
  rw [read?, draftRead?_compactChars h]
  exact value?_draft h

end SnippetRunner.Json
