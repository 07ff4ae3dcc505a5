import SnippetRunner.Proofs.Source.Encoded

/-
  The table of boundaries, read back. Its entries are the offsets of the cells that end a
  statement; each of them is one byte long, so behind its offset the encoded text goes on as the
  cells do.
-/
namespace SnippetRunner.Source

open SnippetRunner.Text

theorem mem_offsetsOf_iff {α : Type} {char : α → Char} {p : α → Bool} {start offset : Nat}
    {s : List α} :
    offset ∈ offsetsOf char p start s ↔ ∃ before a after, s = before ++ a :: after ∧
      p a = true ∧ offset = start + utf8Length (before.map char) := by
  induction s generalizing start with
  | nil => simp [offsetsOf]
  | cons b s ih =>
    have hmem : offset ∈ offsetsOf char p start (b :: s) ↔
        (p b = true ∧ offset = start) ∨
          offset ∈ offsetsOf char p (start + (char b).utf8Size) s := by
      rw [offsetsOf]
      cases p b <;> simp
    rw [hmem, ih]
    constructor
    · rintro (⟨hb, rfl⟩ | ⟨before, a, after, rfl, ha, rfl⟩)
      · exact ⟨[], b, s, rfl, hb, rfl⟩
      · refine ⟨b :: before, a, after, rfl, ha, ?_⟩
        rw [List.map_cons, utf8Length_cons, Nat.add_assoc]
    · rintro ⟨before, a, after, hs, ha, rfl⟩
      cases before with
      | nil =>
        obtain ⟨rfl, rfl⟩ := List.cons.inj hs
        exact Or.inl ⟨ha, rfl⟩
      | cons d before =>
        obtain ⟨rfl, rfl⟩ := List.cons.inj hs
        refine Or.inr ⟨before, a, after, rfl, ha, ?_⟩
        rw [List.map_cons, utf8Length_cons, Nat.add_assoc]

theorem mem_boundaries_iff {source : List Char} {offset : Nat} :
    offset ∈ boundaries source ↔ ∃ before c after, cells source = before ++ c :: after ∧
      c.boundary = true ∧ offset = utf8Length (before.map Cell.char) := by
  rw [boundaries, mem_offsetsOf_iff]
  simp only [Nat.zero_add]

/-- A part and its length in bytes tell each other, at the head of a text. -/
theorem append_inj_of_utf8Length {a b c d : List Cell} (h : a ++ b = c ++ d)
    (hlength : utf8Length (a.map Cell.char) = utf8Length (c.map Cell.char)) : a = c ∧ b = d := by
  rcases List.append_eq_append_iff.mp h with ⟨m, rfl, rfl⟩ | ⟨m, rfl, rfl⟩
  all_goals
    cases m with
    | nil => simp
    | cons x m =>
      have := x.char.utf8Size_pos
      simp only [List.map_append, List.map_cons, utf8Length_append, utf8Length_cons] at hlength
      omega

variable {source : List Char} {before after : List Cell} {c : Cell}

/-- Whether a cell ends a statement is told by the entry for its offset. -/
theorem mem_boundaries_of_cells (h : cells source = before ++ c :: after) :
    utf8Length (before.map Cell.char) ∈ boundaries source ↔ c.boundary = true := by
  rw [mem_boundaries_iff]
  constructor
  · rintro ⟨before', c', after', h', hc', hlength⟩
    obtain ⟨-, hcons⟩ := append_inj_of_utf8Length (h.symm.trans h') hlength
    rwa [(List.cons.inj hcons).1]
  · intro hc
    exact ⟨before, c, after, h, hc, rfl⟩

/-- The bytes behind a boundary are those of the cells behind it. -/
theorem drop_byteGlyphs (h : cells source = before ++ c :: after) (hc : c.boundary = true) :
    (byteGlyphs source).drop (utf8Length (before.map Cell.char) + 1) =
      (after.map Cell.glyph).flatMap Glyph.bytes := by
  have hnarrow : ¬IsWide c.char := not_isWide_of_boundary (by rw [h]; simp) hc
  have hbytes : c.glyph.bytes = [c.glyph] := by
    rw [← Cell.map_glyph_bytes, Cell.bytes_of_not_isWide hnarrow]
    rfl
  have hlength : ((before.map Cell.glyph).flatMap Glyph.bytes).length =
      utf8Length (before.map Cell.char) := by
    rw [← length_bytesOf, bytesOf, List.length_flatMap, List.length_flatMap, List.map_map,
      List.map_map]
    refine congrArg List.sum (List.map_congr_left fun d _ => ?_)
    simp [Glyph.bytes, bytesOf, Cell.char]
  rw [byteGlyphs_eq, ← map_glyph_cells, h, List.map_append, List.map_cons, List.flatMap_append,
    List.flatMap_cons, hbytes, ← List.append_assoc, List.drop_left']
  rw [List.length_append, hlength, List.length_singleton]

end SnippetRunner.Source
