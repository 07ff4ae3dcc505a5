import SnippetRunner.Proofs.Source.Scan
import SnippetRunner.Proofs.Script.Lines

/-
  A script as its preparation sees it: the text, and what scan and walk found out about each
  of its bytes. Places are offsets of bytes. Reading a byte past the end, and taking a part of the
  text that is out of order, out of range or not between characters, gives nothing at all. Where
  a part of the script stands between two offsets, it is what is read there, and a search among
  its bytes ends at the bytes of the character at which the search among its characters ends.
-/
namespace SnippetRunner.Script

open SnippetRunner.Text SnippetRunner.Source

/-- A script and the cells of its bytes. -/
structure Encoded where
  text : List Char
  bytes : List Cell
  deriving DecidableEq, Repr

/-- Scans a script and walks over its bytes. -/
def encode? (text : List Char) : Option Encoded :=
  (scan? text).map fun regions =>
    ⟨text, cellsFrom .initial true (List.zipWith Glyph.mk (bytesOf text) regions)⟩

namespace Encoded

variable (e : Encoded)

/-- The bytes from one offset to another, none of which may be past the end. -/
def range? (start stop : Nat) : Option (List Cell) :=
  if stop ≤ e.bytes.length then some ((e.bytes.take stop).drop start) else none

/-- Reads from `start` on for the first byte that satisfies `p`. -/
def first? (p : Cell → Bool) (start stop : Nat) : Option (Option Nat) :=
  (e.range? start stop).map fun bytes => (bytes.findIdx? p).map (start + ·)

/-- Reads from `stop` back for the last byte that satisfies `p`. -/
def last? (p : Cell → Bool) (start stop : Nat) : Option (Option Nat) :=
  (e.range? start stop).map fun bytes => (bytes.reverse.findIdx? p).map (stop - 1 - ·)

/-- Whether the byte at an offset is code; past the end all is code. -/
def isCode (place : Nat) : Bool := (e.bytes[place]?.map Cell.isCode).getD true

def isComment (place : Nat) : Bool := (e.bytes[place]?.map Cell.isComment).getD false

/-- Whether a boundary stands from one offset to another. -/
def hasBoundary (start stop : Nat) : Bool := ((e.bytes.take stop).drop start).any Cell.boundary

/-- The number of brackets open where a line starts, or where the script ends. -/
def depthAt (line : Nat) : Nat := ((0 :: endDepths 0 e.bytes)[line]?).getD 0

end Encoded

/-- The script with the cells that its bytes have. -/
def encoded (source : List Char) : Encoded := ⟨source, (cells source).flatMap Cell.bytes⟩

theorem encode?_eq (source : List Char) : encode? source = some (encoded source) := by
  have hglyphs : List.zipWith Glyph.mk (bytesOf source) ((byteGlyphs source).map Glyph.region) =
      byteGlyphs source := by
    have hchars : bytesOf source = (byteGlyphs source).map Glyph.char := (map_char_glyphs _).symm
    rw [hchars, List.zipWith_map]
    simp
  rw [encode?, scan?_eq, Option.map_some, hglyphs, encoded, ← cells_bytesOf]
  rfl

/-! ## Parts of a script -/

/-- The number of bytes of a part. -/
def width (cs : List Cell) : Nat := utf8Length (cs.map Cell.char)

@[simp] theorem width_nil : width [] = 0 := rfl

@[simp] theorem width_append (a b : List Cell) : width (a ++ b) = width a + width b := by
  simp [width]

theorem width_cells (source : List Char) : width (cells source) = utf8Length source := by
  rw [width, map_char_cells]

theorem length_flatMap_bytes (cs : List Cell) : (cs.flatMap Cell.bytes).length = width cs := by
  induction cs with
  | nil => rfl
  | cons c cs ih => simp [ih, width, Cell.length_bytes]

/-- The bytes of a part around its last byte. -/
theorem exists_last_byte (init : List Cell) (last : Cell) :
    ∃ more b, last.bytes = more ++ [b] ∧
      (init ++ [last]).flatMap Cell.bytes = init.flatMap Cell.bytes ++ more ++ [b] ∧
      (init.flatMap Cell.bytes ++ more).length = width (init ++ [last]) - 1 := by
  obtain ⟨more, b, hbytes⟩ := (List.eq_nil_or_concat' last.bytes).resolve_left last.bytes_ne_nil
  have hjoin : (init ++ [last]).flatMap Cell.bytes = init.flatMap Cell.bytes ++ more ++ [b] := by
    rw [List.flatMap_append, List.flatMap_singleton, hbytes, List.append_assoc]
  refine ⟨more, b, hbytes, hjoin, ?_⟩
  rw [← length_flatMap_bytes, hjoin, ← List.concat_eq_append, List.length_concat,
    Nat.add_sub_cancel]

theorem width_pos {cs : List Cell} (h : cs ≠ []) : 0 < width cs := by
  obtain ⟨c, cs, rfl⟩ := List.exists_cons_of_ne_nil h
  have := c.char.utf8Size_pos
  simp only [width, List.map_cons, utf8Length_cons]
  omega

/-- A function that does not tell the bytes of a character from it. -/
def Uniform {α : Type} (f : Cell → α) : Prop := ∀ c, ∀ b ∈ c.bytes, f b = f c

theorem Uniform.comp {α β : Type} {f : Cell → α} (h : Uniform f) (g : α → β) :
    Uniform fun c => g (f c) := fun c b hb => congrArg g (h c b hb)

theorem uniform_region : Uniform (·.glyph.region) := fun _ _ hb =>
  Glyph.region_of_mem_bytes (Cell.glyph_mem_bytes hb)

theorem uniform_isCode : Uniform Cell.isCode := uniform_region.comp (decide <| · = .code)

theorem uniform_isComment : Uniform Cell.isComment := uniform_region.comp Region.isComment

theorem uniform_isSignificant : Uniform Cell.isSignificant := fun _ _ hb =>
  Glyph.isSignificant_of_mem_bytes (Cell.glyph_mem_bytes hb)

theorem uniform_isAsciiBlank : Uniform (isAsciiBlank ·.char) := fun _ _ hb =>
  Glyph.isAsciiBlank_of_mem_bytes (Cell.glyph_mem_bytes hb)

theorem uniform_depthAfter : Uniform Cell.depthAfter := fun _ _ hb =>
  Cell.depthAfter_of_mem_bytes hb

/-- A test that no wide character passes. -/
theorem uniform_of_narrow {p : Char → Bool} (h : ∀ c, IsWide c → p c = false) :
    Uniform (p ·.char) := by
  intro c b hb
  by_cases hc : IsWide c.char
  · exact (h _ (Cell.isWide_of_mem_bytes hb hc)).trans (h _ hc).symm
  · rw [Cell.bytes_of_not_isWide hc, List.mem_singleton] at hb
    rw [hb]

theorem bytes_encoded {source : List Char} {before after : List Cell}
    (h : cells source = before ++ after) :
    (encoded source).bytes = before.flatMap Cell.bytes ++ after.flatMap Cell.bytes := by
  rw [encoded, h, List.flatMap_append]

theorem length_bytes_encoded (source : List Char) :
    (encoded source).bytes.length = width (cells source) := length_flatMap_bytes _

section Part

variable {source : List Char} {before part after : List Cell} {start stop : Nat} {p : Cell → Bool}

theorem source_eq (h : cells source = before ++ part ++ after) :
    source = before.map Cell.char ++ part.map Cell.char ++ after.map Cell.char := by
  rw [← map_char_cells source, h, List.map_append, List.map_append]

theorem slice?_part (h : cells source = before ++ part ++ after) (hstart : start = width before)
    (hstop : stop = start + width part) : slice? source start stop = some (part.map Cell.char) :=
  slice?_of_append (source_eq h) hstart hstop

theorem take_drop_part (h : cells source = before ++ part ++ after) (hstart : start = width before)
    (hstop : stop = start + width part) :
    ((encoded source).bytes.take stop).drop start = part.flatMap Cell.bytes := by
  have hlength : (before.flatMap Cell.bytes ++ part.flatMap Cell.bytes).length = stop := by
    rw [List.length_append, length_flatMap_bytes, length_flatMap_bytes, hstop, hstart]
  rw [bytes_encoded h, List.flatMap_append, List.take_left' hlength,
    List.drop_left' ((length_flatMap_bytes before).trans hstart.symm)]

theorem range?_part (h : cells source = before ++ part ++ after) (hstart : start = width before)
    (hstop : stop = start + width part) :
    (encoded source).range? start stop = some (part.flatMap Cell.bytes) := by
  rw [Encoded.range?, if_pos, take_drop_part h hstart hstop]
  rw [length_bytes_encoded, h, width_append, width_append]
  omega

/-- Where the blocks of a list are uniform, a search ends at the start of one. -/
theorem findIdx?_flatMap {f : Cell → List Cell}
    (hf : ∀ c, f c ≠ [] ∧ ∀ b ∈ f c, p b = p c) (cs : List Cell) :
    (cs.flatMap f).findIdx? p =
      if cs.any p then some ((cs.takeWhile (!p ·)).flatMap f).length else none := by
  induction cs with
  | nil => rfl
  | cons c cs ih =>
    rw [List.flatMap_cons, List.findIdx?_append, ih]
    obtain ⟨hne, hp⟩ := hf c
    cases hc : p c with
    | true =>
      obtain ⟨b, more, hbytes⟩ := List.exists_cons_of_ne_nil hne
      have hb : p b = true := by rw [hp b (by rw [hbytes]; exact List.mem_cons_self ..), hc]
      simp [hbytes, List.findIdx?_cons, hb, hc]
    | false =>
      have hnone : (f c).findIdx? p = none :=
        List.findIdx?_eq_none_iff.mpr fun b hb => by rw [hp b hb, hc]
      rw [hnone, List.any_cons, hc, Bool.false_or, List.takeWhile_cons_of_pos (by simp [hc]),
        List.flatMap_cons, List.length_append]
      split <;> simp [Nat.add_comm]

theorem first?_part (hp : Uniform p) (h : cells source = before ++ part ++ after)
    (hstart : start = width before) (hstop : stop = start + width part) :
    (encoded source).first? p start stop =
      some (if part.any p then some (start + width (part.takeWhile (!p ·))) else none) := by
  rw [Encoded.first?, range?_part h hstart hstop, Option.map_some,
    findIdx?_flatMap fun c => ⟨c.bytes_ne_nil, hp c⟩, length_flatMap_bytes]
  split <;> rfl

theorem last?_part (hp : Uniform p) (h : cells source = before ++ part ++ after)
    (hstart : start = width before) (hstop : stop = start + width part) :
    (encoded source).last? p start stop =
      some (if part.any p then some (start + width (upToLast p part) - 1) else none) := by
  obtain ⟨dropped, hdropped⟩ : ∃ dropped : List Cell, dropped = part.reverse.takeWhile (!p ·) :=
    ⟨_, rfl⟩
  have hpart : part = upToLast p part ++ dropped.reverse := by
    rw [upToLast, hdropped, ← List.reverse_append, List.takeWhile_append_dropWhile,
      List.reverse_reverse]
  have hwidth : width part = width (upToLast p part) + width dropped := by
    conv_lhs => rw [hpart]
    simp [width, utf8Length]
  have hlength : (dropped.flatMap (List.reverse ∘ Cell.bytes)).length = width dropped := by
    rw [← length_flatMap_bytes]
    simp [List.length_flatMap, Function.comp_def]
  rw [Encoded.last?, range?_part h hstart hstop, Option.map_some, List.reverse_flatMap,
    findIdx?_flatMap (f := List.reverse ∘ Cell.bytes)
      fun c => ⟨by simpa using c.bytes_ne_nil, fun b hb => hp c b (by simpa using hb)⟩,
    ← hdropped, hlength, List.any_reverse]
  split
  · rw [Option.map_some, Option.some.injEq, Option.some.injEq]
    omega
  · rfl

end Part

section Place

variable {source : List Char} {before after : List Cell} {α : Type} {f : Cell → α}

theorem getLast?_flatMap_bytes (hf : Uniform f) (cs : List Cell) :
    (cs.flatMap Cell.bytes).getLast?.map f = cs.getLast?.map f := by
  cases cs.eq_nil_or_concat' with
  | inl h => rw [h]; rfl
  | inr h =>
    obtain ⟨init, c, rfl⟩ := h
    obtain ⟨more, b, hbytes⟩ := (List.eq_nil_or_concat' c.bytes).resolve_left c.bytes_ne_nil
    have hb := hf c b (by simp [hbytes])
    simp [hbytes, hb]

/-- The byte at the start of a part is one of its first character. -/
theorem getElem?_width_cons {c : Cell} (h : cells source = before ++ c :: after) :
    ∃ b ∈ c.bytes, (encoded source).bytes[width before]? = some b := by
  obtain ⟨b, more, hbytes⟩ := List.exists_cons_of_ne_nil c.bytes_ne_nil
  refine ⟨b, by rw [hbytes]; exact List.mem_cons_self .., ?_⟩
  rw [bytes_encoded h, List.getElem?_append_right (by rw [length_flatMap_bytes]),
    length_flatMap_bytes, Nat.sub_self, List.flatMap_cons, hbytes]
  rfl

/-- The byte at the end of a part is one of its last character. -/
theorem getElem?_width_concat {c : Cell} (h : cells source = before ++ [c] ++ after) :
    ∃ b ∈ c.bytes, (encoded source).bytes[width (before ++ [c]) - 1]? = some b := by
  obtain ⟨more, b, hbytes, hjoin, hlength⟩ := exists_last_byte before c
  refine ⟨b, by simp [hbytes], ?_⟩
  rw [bytes_encoded h, hjoin, ← hlength, List.append_assoc,
    List.getElem?_append_right (Nat.le_refl _), Nat.sub_self]
  rfl

theorem getElem?_width (hf : Uniform f) (h : cells source = before ++ after) :
    (encoded source).bytes[width before]?.map f = after.head?.map f := by
  cases after with
  | nil =>
    rw [List.append_nil] at h
    rw [List.getElem?_eq_none (by rw [length_bytes_encoded, h])]
    rfl
  | cons c after =>
    obtain ⟨b, hb, hget⟩ := getElem?_width_cons h
    rw [hget, Option.map_some, hf c b hb]
    rfl

theorem getElem?_width_sub_one (hf : Uniform f) (h : cells source = before ++ after)
    (hne : before ≠ []) :
    (encoded source).bytes[width before - 1]?.map f = before.getLast?.map f := by
  obtain ⟨init, c, rfl⟩ := (List.eq_nil_or_concat' before).resolve_left hne
  obtain ⟨b, hb, hget⟩ := getElem?_width_concat h
  rw [hget, Option.map_some, hf c b hb, List.getLast?_concat]
  rfl

end Place

/-! ## Depths -/

theorem filter_newline_flatMap_bytes (cs : List Cell) :
    (cs.flatMap Cell.bytes).filter (·.char = '\n') = cs.filter (·.char = '\n') := by
  induction cs with
  | nil => rfl
  | cons c cs ih =>
    rw [List.flatMap_cons, List.filter_append, ih]
    by_cases hc : IsWide c.char
    · have hnone : c.bytes.filter (·.char = '\n') = [] := List.filter_eq_nil_iff.mpr fun b hb => by
        simpa using (Cell.isWide_of_mem_bytes hb hc).ne (d := '\n') (by decide)
      rw [hnone, List.nil_append,
        List.filter_cons_of_neg (by simpa using hc.ne (d := '\n') (by decide))]
    · rw [Cell.bytes_of_not_isWide hc, ← List.filter_append, List.singleton_append]

theorem depthAt_encoded (source : List Char) (line : Nat) :
    (encoded source).depthAt line = ((lineDepths source)[line]?).getD 0 := by
  rw [Encoded.depthAt, lineDepths_eq, encoded]
  simp only [endDepths, filter_newline_flatMap_bytes, getLast?_flatMap_bytes uniform_depthAfter]

/-! ## Boundaries -/

theorem boundary_of_mem_bytes {source : List Char} {b c : Cell} (hc : c ∈ cells source)
    (hb : b ∈ c.bytes) : b.boundary = c.boundary := by
  by_cases hwide : IsWide c.char
  · have hnot : c.boundary = false :=
      Bool.eq_false_iff.mpr fun h => not_isWide_of_boundary hc h hwide
    rw [hnot]
    exact Bool.eq_false_iff.mpr fun h => by
      rw [Cell.boundary_of_mem_bytes hb h] at hnot
      cases hnot
  · rw [Cell.bytes_of_not_isWide hwide, List.mem_singleton] at hb
    rw [hb]

end SnippetRunner.Script
