import Mathlib.Algebra.GroupWithZero.Nat
import Mathlib.Data.List.Basic
import SnippetRunner.Text.Blank
import SnippetRunner.Text.Bytes

/-
  Parts of a text between offsets in its UTF-8 encoding. A part can be taken if its offsets are
  in order, in range and between characters. A narrow character is its own encoding, and all
  bytes of a wide one are wide, so a test that no wide character passes finds the same places
  among the bytes as among the characters.
-/
namespace SnippetRunner.Text

/-- The number of bytes that encode `s`. -/
def utf8Length (s : List Char) : Nat := (s.map Char.utf8Size).sum

/-- Cuts a text at an offset, unless the offset is out of range or inside a character. -/
def cutAt? : Nat → List Char → Option (List Char × List Char)
  | 0, s => some ([], s)
  | _ + 1, [] => none
  | n + 1, c :: s =>
    if c.utf8Size ≤ n + 1 then
      (cutAt? (n + 1 - c.utf8Size) s).map fun (before, after) => (c :: before, after)
    else none

/-- The part of a text from one offset to another. -/
def slice? (s : List Char) (start stop : Nat) : Option (List Char) :=
  if start ≤ stop then
    (cutAt? start s).bind fun cut => (cutAt? (stop - start) cut.2).map Prod.fst
  else none

@[simp] theorem utf8Length_nil : utf8Length [] = 0 := rfl

@[simp] theorem utf8Length_cons (c : Char) (s : List Char) :
    utf8Length (c :: s) = c.utf8Size + utf8Length s := by
  simp [utf8Length]

@[simp] theorem utf8Length_append (s t : List Char) :
    utf8Length (s ++ t) = utf8Length s + utf8Length t := by
  simp [utf8Length]

/-! ## Slices -/

theorem cutAt?_eq_some_iff {n : Nat} {s before after : List Char} :
    cutAt? n s = some (before, after) ↔ s = before ++ after ∧ n = utf8Length before := by
  induction s generalizing n before after with
  | nil =>
    cases n with
    | zero => cases before <;> simp [cutAt?, eq_comm]
    | succ n => cases before <;> simp [cutAt?]
  | cons c s ih =>
    have hc := c.utf8Size_pos
    cases n with
    | zero =>
      cases before with
      | nil => simp [cutAt?, eq_comm]
      | cons d before =>
        have hd := d.utf8Size_pos
        have hne : ¬0 = d.utf8Size + utf8Length before := by omega
        simp [cutAt?, hne]
    | succ n =>
      cases before with
      | nil => by_cases hle : c.utf8Size ≤ n + 1 <;> simp [cutAt?, hle]
      | cons d before =>
        rw [cutAt?, List.cons_append, List.cons.injEq, utf8Length_cons]
        split
        · simp only [Option.map_eq_some_iff, Prod.exists, ih, Prod.mk.injEq, List.cons.injEq]
          constructor
          · rintro ⟨_, _, ⟨rfl, hn⟩, ⟨rfl, rfl⟩, rfl⟩
            exact ⟨⟨rfl, rfl⟩, by omega⟩
          · rintro ⟨⟨rfl, rfl⟩, hn⟩
            exact ⟨before, after, ⟨rfl, by omega⟩, ⟨rfl, rfl⟩, rfl⟩
        · next hlt =>
          constructor
          · intro h
            cases h
          · rintro ⟨⟨rfl, -⟩, hn⟩
            omega

/-- A part can be taken exactly if it stands between the two offsets. -/
theorem slice?_eq_some_iff {s part : List Char} {start stop : Nat} :
    slice? s start stop = some part ↔ ∃ before after, s = before ++ part ++ after ∧
      start = utf8Length before ∧ stop = utf8Length before + utf8Length part := by
  unfold slice?
  split
  · next hle =>
    simp only [Option.bind_eq_some_iff, Option.map_eq_some_iff, Prod.exists, cutAt?_eq_some_iff]
    constructor
    · rintro ⟨before, rest, ⟨rfl, rfl⟩, p, after, ⟨rfl, hp⟩, rfl⟩
      exact ⟨before, after, by simp, rfl, by omega⟩
    · rintro ⟨before, after, rfl, rfl, rfl⟩
      exact ⟨before, part ++ after, ⟨by simp, rfl⟩, part, after, ⟨rfl, by omega⟩, rfl⟩
  · next hlt =>
    constructor
    · intro h
      cases h
    · rintro ⟨before, after, -, rfl, rfl⟩
      omega

example : slice? ['a', 'é'] 0 2 = none := by decide

/-- A part is taken by the lengths of what stands before it and of itself. -/
theorem slice?_of_append {s before part after : List Char} {start stop : Nat}
    (h : s = before ++ part ++ after) (hstart : start = utf8Length before)
    (hstop : stop = start + utf8Length part) : slice? s start stop = some part :=
  slice?_eq_some_iff.mpr ⟨before, after, h, hstart, by rw [hstop, hstart]⟩

/-! ## The bytes of a character -/

theorem bytesOf_cons (c : Char) (s : List Char) : bytesOf (c :: s) = bytesOf [c] ++ bytesOf s := by
  simp [bytesOf]

theorem length_bytesOf (s : List Char) : (bytesOf s).length = utf8Length s := by
  simp [bytesOf, utf8Length, List.length_flatMap, String.length_utf8EncodeChar]

theorem bytesOf_singleton_ne_nil (c : Char) : bytesOf [c] ≠ [] := by
  simp [bytesOf, String.utf8EncodeChar_ne_nil]

/-- A wide character is encoded in more than one byte. -/
def IsWide (c : Char) : Prop := 128 ≤ c.toNat

instance : DecidablePred IsWide := fun c => inferInstanceAs (Decidable (128 ≤ c.toNat))

theorem IsWide.ne {c d : Char} (h : IsWide c) (hd : ¬IsWide d) : c ≠ d := by
  rintro rfl
  exact hd h

theorem not_isAsciiBlank_of_isWide {c : Char} (h : IsWide c) : isAsciiBlank c = false := by
  simp [isAsciiBlank, h.ne (d := ' ') (by decide), h.ne (d := '\t') (by decide),
    h.ne (d := '\n') (by decide), h.ne (d := '\x0c') (by decide), h.ne (d := '\r') (by decide)]

theorem toNat_ofNat_byte (b : UInt8) : (Char.ofNat b.toNat).toNat = b.toNat := by
  have hlt := b.toNat_lt
  have hvalid : b.toNat.isValidChar := Or.inl (by omega)
  rw [Char.ofNat, dif_pos hvalid]
  rfl

theorem byte_injective : Function.Injective fun b : UInt8 => Char.ofNat b.toNat := by
  intro a b h
  have h := congrArg Char.toNat h
  simp only [toNat_ofNat_byte] at h
  exact UInt8.toNat_inj.mp h

/-- A text can be read back from its bytes. -/
theorem bytesOf_injective : Function.Injective bytesOf := by
  intro s t h
  have hbytes : s.flatMap String.utf8EncodeChar = t.flatMap String.utf8EncodeChar := by
    refine (List.map_injective_iff.mpr byte_injective) ?_
    rw [List.map_flatMap, List.map_flatMap]
    exact h
  have hencode : s.utf8Encode = t.utf8Encode := congrArg List.toByteArray hbytes
  have hdecode := congrArg ByteArray.utf8Decode? hencode
  simpa using hdecode

theorem bytesOf_singleton_of_not_isWide {c : Char} (h : ¬IsWide c) : bytesOf [c] = [c] := by
  have hlt : c.toNat ≤ 127 := by unfold IsWide at h; omega
  have hbyte : (UInt8.ofNat c.toNat).toNat = c.toNat := by
    rw [UInt8.toNat_ofNat']
    omega
  have hencode : String.utf8EncodeChar c = [UInt8.ofNat c.toNat] := by
    unfold String.utf8EncodeChar
    exact if_pos hlt
  simp [bytesOf, hencode, hbyte]

theorem isWide_of_mem_bytesOf {c b : Char} (h : IsWide c) (hb : b ∈ bytesOf [c]) : IsWide b := by
  obtain ⟨byte, hmem, rfl⟩ : ∃ byte ∈ String.utf8EncodeChar c, Char.ofNat byte.toNat = b := by
    simpa [bytesOf] using hb
  have hmin : 128 ≤ c.toNat := h
  have hmax : c.toNat < 1114112 := by
    rcases c.valid with h | h
    · have : c.toNat < 0xd800 := h
      omega
    · exact h.2
  unfold IsWide
  rw [toNat_ofNat_byte]
  unfold String.utf8EncodeChar at hmem
  simp only [show c.val.toNat = c.toNat from rfl] at hmem
  rw [if_neg (by omega)] at hmem
  split at hmem
  · simp only [List.mem_cons, List.not_mem_nil, or_false] at hmem
    rcases hmem with rfl | rfl <;> simp <;> omega
  split at hmem
  · simp only [List.mem_cons, List.not_mem_nil, or_false] at hmem
    rcases hmem with rfl | rfl | rfl <;> simp <;> omega
  · simp only [List.mem_cons, List.not_mem_nil, or_false] at hmem
    rcases hmem with rfl | rfl | rfl | rfl <;> simp <;> omega

/-- A narrow character stands for itself; a wide one for wide bytes. -/
theorem bytesOf_singleton_cases (c : Char) :
    (¬IsWide c ∧ bytesOf [c] = [c]) ∨
      (IsWide c ∧ ∃ b more, bytesOf [c] = b :: more ∧ IsWide b ∧ ∀ d ∈ more, IsWide d) := by
  by_cases h : IsWide c
  · obtain ⟨b, more, hbytes⟩ := List.exists_cons_of_ne_nil (bytesOf_singleton_ne_nil c)
    have hwide : ∀ d ∈ b :: more, IsWide d := fun d hd =>
      isWide_of_mem_bytesOf h (by rw [hbytes]; exact hd)
    exact Or.inr ⟨h, b, more, hbytes, hwide b (List.mem_cons_self ..),
      fun d hd => hwide d (List.mem_cons_of_mem _ hd)⟩
  · exact Or.inl ⟨h, bytesOf_singleton_of_not_isWide h⟩

end SnippetRunner.Text
