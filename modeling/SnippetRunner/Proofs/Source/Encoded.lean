import SnippetRunner.Proofs.Source.Progress
import SnippetRunner.Proofs.Text.Utf8

/-
  The lexer and the walk on the bytes of a script. They ask about narrow characters only, which
  are the same in both, and no state changes between the bytes of a wide one. So the glyphs of
  the bytes are those of the characters, each with its bytes, and so are the cells.
-/
namespace SnippetRunner.Source

open SnippetRunner.Text

/-- The bytes of a glyph, all in its region. -/
def Glyph.bytes (g : Glyph) : List Glyph := (bytesOf [g.char]).map (⟨·, g.region⟩)

/-- A narrow glyph is its own byte; the bytes of a wide one are wide. -/
theorem Glyph.bytes_cases (g : Glyph) :
    (¬IsWide g.char ∧ g.bytes = [g]) ∨
      (IsWide g.char ∧ ∃ b more, g.bytes = b :: more ∧
        ∀ d ∈ b :: more, IsWide d.char ∧ d.region = g.region) := by
  rcases bytesOf_singleton_cases g.char with ⟨h, hbytes⟩ | ⟨h, b, more, hbytes, hb, hmore⟩
  · exact Or.inl ⟨h, by rw [bytes, hbytes]; rfl⟩
  · refine Or.inr ⟨h, ⟨b, g.region⟩, more.map (⟨·, g.region⟩), by rw [bytes, hbytes]; rfl, ?_⟩
    intro d hd
    rcases List.mem_cons.mp hd with rfl | hd
    · exact ⟨hb, rfl⟩
    · obtain ⟨e, he, rfl⟩ := List.mem_map.mp hd
      exact ⟨hmore e he, rfl⟩

theorem Glyph.region_of_mem_bytes {g b : Glyph} (h : b ∈ g.bytes) : b.region = g.region := by
  obtain ⟨c, -, rfl⟩ := List.mem_map.mp h
  rfl

theorem Glyph.isAsciiBlank_of_mem_bytes {g b : Glyph} (h : b ∈ g.bytes) :
    isAsciiBlank b.char = isAsciiBlank g.char := by
  rcases g.bytes_cases with ⟨-, hbytes⟩ | ⟨hg, _, _, hbytes, hwide⟩
  · rw [hbytes, List.mem_singleton] at h
    rw [h]
  · rw [hbytes] at h
    rw [not_isAsciiBlank_of_isWide hg, not_isAsciiBlank_of_isWide (hwide b h).1]

theorem Glyph.isSignificant_of_mem_bytes {g b : Glyph} (h : b ∈ g.bytes) :
    b.isSignificant = g.isSignificant := by
  rw [isSignificant, isSignificant, isComment, isComment, region_of_mem_bytes h,
    isAsciiBlank_of_mem_bytes h]

/-! ## Glyphs -/

theorem head?_bytesOf_eq_some_iff {s : List Char} {d : Char} (hd : ¬IsWide d) :
    (bytesOf s).head? = some d ↔ s.head? = some d := by
  cases s with
  | nil => rfl
  | cons c s =>
    rw [bytesOf_cons]
    rcases bytesOf_singleton_cases c with ⟨-, hbytes⟩ | ⟨hc, b, more, hbytes, hb, -⟩
    · rw [hbytes]
      rfl
    · rw [hbytes]
      simp [hb.ne hd, hc.ne hd]

namespace Lexer

variable {l : Lexer} {b c quote : Char} {next : Option Char}

/-- A step sees of what follows only whether it is one of three narrow characters. -/
theorem step_head?_bytesOf (l : Lexer) (c : Char) (s : List Char) :
    l.step c (bytesOf s).head? = l.step c s.head? := by
  simp only [step, stepCode, stepTemplate, head?_bytesOf_eq_some_iff (d := '/') (by decide),
    head?_bytesOf_eq_some_iff (d := '*') (by decide),
    head?_bytesOf_eq_some_iff (d := '{') (by decide)]

theorem stepCode_of_isWide (h : IsWide c) : l.stepCode c next = (.code, l) := by
  simp [stepCode, h.ne (d := '/') (by decide), h.ne (d := '\'') (by decide),
    h.ne (d := '"') (by decide), h.ne (d := '\x60') (by decide), h.ne (d := '{') (by decide),
    h.ne (d := '}') (by decide)]

theorem stepQuoted_of_isWide (h : IsWide c) (hquote : quote = '\'' ∨ quote = '"') :
    l.stepQuoted quote c = (.string, l) := by
  have hne : c ≠ quote := by rcases hquote with rfl | rfl <;> exact h.ne (by decide)
  simp [stepQuoted, hne, h.ne (d := '\\') (by decide), h.ne (d := '\n') (by decide)]

theorem stepTemplate_of_isWide (h : IsWide c) : l.stepTemplate c next = (.template, l) := by
  simp [stepTemplate, h.ne (d := '\\') (by decide), h.ne (d := '\x60') (by decide),
    h.ne (d := '$') (by decide)]

/-- All wide characters are in `region`, and the state stays the same. -/
def Rests (l : Lexer) (region : Region) : Prop :=
  ∀ b next, IsWide b → l.step b next = (region, l)

/-- The first byte of a wide character leads to a state that its other bytes leave as it is. -/
theorem exists_rests (h : l.Ready (some c)) (hc : IsWide c) :
    ∃ region after, (∀ b next, IsWide b → l.step b next = (region, after)) ∧
      after.Rests region := by
  unfold Ready at h
  cases hm : l.mode with
  | code =>
    have hstep : l.Rests .code := fun b next hb => by rw [step_code hm, stepCode_of_isWide hb]
    exact ⟨_, _, hstep, hstep⟩
  | quoted quote =>
    rw [hm] at h
    have hstep : l.Rests .string := fun b next hb => by
      rw [step_quoted hm, stepQuoted_of_isWide hb h]
    exact ⟨_, _, hstep, hstep⟩
  | quotedEscape quote =>
    rw [hm] at h
    refine ⟨_, _, fun b next _ => step_quotedEscape hm, fun b next hb => ?_⟩
    rw [step_quoted rfl, stepQuoted_of_isWide hb h]
  | template =>
    have hstep : l.Rests .template := fun b next hb => by
      rw [step_template hm, stepTemplate_of_isWide hb]
    exact ⟨_, _, hstep, hstep⟩
  | templateEscape =>
    refine ⟨_, _, fun b next _ => step_templateEscape hm, fun b next hb => ?_⟩
    rw [step_template rfl, stepTemplate_of_isWide hb]
  | substitutionOpen =>
    rw [hm] at h
    exact absurd (Option.some.inj h) (hc.ne (by decide))
  | lineComment =>
    have hstep : l.Rests .lineComment := fun b next hb => by
      rw [step_lineComment hm, if_neg (hb.ne (by decide))]
    exact ⟨_, _, hstep, hstep⟩
  | commentOpen =>
    rw [hm] at h
    exact absurd (Option.some.inj h) (hc.ne (by decide))
  | blockComment =>
    have hstep : l.Rests .blockComment := fun b next hb => by
      rw [step_blockComment hm, if_neg (by simp [hb.ne (d := '*') (by decide)])]
    exact ⟨_, _, hstep, hstep⟩
  | commentClose =>
    rw [hm] at h
    exact absurd (Option.some.inj h) (hc.ne (by decide))

theorem Rests.glyphsFrom_append {region : Region} (h : l.Rests region) {bs : List Char}
    (hbs : ∀ b ∈ bs, IsWide b) (s : List Char) :
    l.glyphsFrom (bs ++ s) = bs.map (⟨·, region⟩) ++ l.glyphsFrom s := by
  induction bs with
  | nil => rfl
  | cons b bs ih =>
    rw [List.cons_append, glyphsFrom, h b _ (hbs b (List.mem_cons_self ..)),
      ih fun d hd => hbs d (List.mem_cons_of_mem _ hd)]
    rfl

theorem glyphsFrom_bytesOf {s : List Char} (h : l.Ready s.head?) :
    l.glyphsFrom (bytesOf s) = (l.glyphsFrom s).flatMap Glyph.bytes := by
  induction s generalizing l with
  | nil => rfl
  | cons c s ih =>
    have hready : (l.step c s.head?).2.Ready s.head? := ready_step h
    have hrest := ih hready
    rw [glyphsFrom, List.flatMap_cons, ← hrest, Glyph.bytes, bytesOf_cons]
    rcases bytesOf_singleton_cases c with ⟨-, hbytes⟩ | ⟨hc, b, more, hbytes, hb, hmore⟩
    · rw [hbytes, List.singleton_append, glyphsFrom, step_head?_bytesOf]
      rfl
    · obtain ⟨region, after, hfirst, hrests⟩ := exists_rests h hc
      rw [hbytes, List.cons_append, glyphsFrom, hfirst b _ hb, hfirst c _ hc,
        hrests.glyphsFrom_append hmore]
      rfl

end Lexer

theorem byteGlyphs_eq (source : List Char) :
    byteGlyphs source = (glyphs source).flatMap Glyph.bytes :=
  Lexer.glyphsFrom_bytesOf (Lexer.ready_initial _)

/-! ## Cells -/

/-- The bytes of a cell. Nothing opens, closes or ends between them; the statement has begun
after the first, if the character is significant. -/
def Cell.bytes (c : Cell) : List Cell :=
  match c.glyph.bytes with
  | [] => []
  | g :: more => { c with glyph := g }
      :: more.map (⟨·, c.depthAfter, c.depthAfter, false, c.fresh && !c.isSignificant⟩)

theorem not_isContinuation_of_isWide {c : Char} (h : IsWide c) : isContinuation c = false := by
  refine Bool.eq_false_iff.mpr fun hc => ?_
  have hnarrow : continuationChars.all (fun d => !decide (IsWide d)) = true := by decide
  have hc := List.all_eq_true.mp hnarrow c (by simpa [isContinuation] using hc)
  exact absurd h (by simpa using hc)

theorem continuesIn_bytes (gs : List Glyph) :
    continuesIn (gs.flatMap Glyph.bytes) = continuesIn gs := by
  induction gs with
  | nil => rfl
  | cons g gs ih =>
    rw [List.flatMap_cons]
    cases hsig : g.isSignificant with
    | false =>
      rw [continuesIn_append_of_not fun b hb => (Glyph.isSignificant_of_mem_bytes hb).trans hsig,
        continuesIn_cons_of_not hsig, ih]
    | true =>
      rw [continuesIn_cons_of_significant hsig]
      rcases g.bytes_cases with ⟨-, hbytes⟩ | ⟨hg, b, more, hbytes, hwide⟩
      · rw [hbytes, List.singleton_append, continuesIn_cons_of_significant hsig]
      · have hb : b ∈ g.bytes := by rw [hbytes]; exact List.mem_cons_self ..
        rw [hbytes, List.cons_append,
          continuesIn_cons_of_significant ((Glyph.isSignificant_of_mem_bytes hb).trans hsig),
          not_isContinuation_of_isWide hg,
          not_isContinuation_of_isWide (hwide b (List.mem_cons_self ..)).1]

namespace Nesting

variable {n : Nesting} {g : Glyph}

/-- A wide character opens and closes nothing. -/
theorem step_of_isWide (h : IsWide g.char) :
    n.step g = { n with callClosed := if g.isSignificant then none else n.callClosed } := by
  have hopen : isOpening g.char = false := by
    simp [isOpening, h.ne (d := '(') (by decide), h.ne (d := '[') (by decide),
      h.ne (d := '\x7b') (by decide)]
  have hclose : isClosing g.char = false := by
    simp [isClosing, h.ne (d := ')') (by decide), h.ne (d := ']') (by decide),
      h.ne (d := '\x7d') (by decide)]
  have hcall : n.callClosedBy g = none := by
    unfold callClosedBy
    split
    · rw [if_neg (by simp [h.ne (d := ')') (by decide)])]
    · rfl
  simp [step, openedAfter, hopen, hclose, hcall, h.ne (d := '\n') (by decide)]

theorem isBoundary_of_isWide (h : IsWide g.char) (following : List Glyph) :
    n.isBoundary g following = false := by
  simp [isBoundary, h.ne (d := ';') (by decide), h.ne (d := '\n') (by decide)]

theorem isBoundary_bytes (n : Nesting) (g : Glyph) (following : List Glyph) :
    n.isBoundary g (following.flatMap Glyph.bytes) = n.isBoundary g following := by
  rw [isBoundary, isBoundary, continuesIn_bytes]

end Nesting

/-- The walk over wide glyphs, in a state that they leave as it is. -/
theorem cellsFrom_append_of_isWide {n : Nesting} {fresh : Bool} {gs : List Glyph}
    (h : ∀ g ∈ gs, IsWide g.char ∧ n.step g = n ∧ freshAfter fresh false g = fresh)
    (rest : List Glyph) :
    cellsFrom n fresh (gs ++ rest) =
      gs.map (⟨·, n.depth, n.depth, false, fresh⟩) ++ cellsFrom n fresh rest := by
  induction gs with
  | nil => rfl
  | cons g gs ih =>
    obtain ⟨hwide, hstep, hfresh⟩ := h g (List.mem_cons_self ..)
    rw [List.cons_append, cellsFrom, Nesting.isBoundary_of_isWide hwide, hstep, hfresh,
      ih fun d hd => h d (List.mem_cons_of_mem _ hd)]
    rfl

theorem cellsFrom_bytes (n : Nesting) (fresh : Bool) (gs : List Glyph) :
    cellsFrom n fresh (gs.flatMap Glyph.bytes) = (cellsFrom n fresh gs).flatMap Cell.bytes := by
  induction gs generalizing n fresh with
  | nil => rfl
  | cons g gs ih =>
    rw [cellsFrom, List.flatMap_cons, List.flatMap_cons, ← ih, Cell.bytes]
    rcases g.bytes_cases with ⟨-, hbytes⟩ | ⟨hg, b, more, hbytes, hwide⟩
    · rw [hbytes, List.singleton_append, cellsFrom, Nesting.isBoundary_bytes]
      rfl
    · have hsig {d : Glyph} (hd : d ∈ b :: more) : d.isSignificant = g.isSignificant :=
        Glyph.isSignificant_of_mem_bytes (by rw [hbytes]; exact hd)
      have hstep {d : Glyph} (hd : d ∈ b :: more) : n.step d = n.step g := by
        rw [Nesting.step_of_isWide hg, Nesting.step_of_isWide (hwide d hd).1, hsig hd]
      have hfresh {d : Glyph} (hd : d ∈ b :: more) :
          freshAfter fresh false d = freshAfter fresh false g := by
        rw [freshAfter, freshAfter, hsig hd]
      have hb : b ∈ b :: more := List.mem_cons_self ..
      rw [hbytes, List.cons_append, cellsFrom, Nesting.isBoundary_of_isWide hg,
        Nesting.isBoundary_of_isWide (hwide b hb).1, hstep hb, hfresh hb,
        cellsFrom_append_of_isWide]
      · rfl
      · intro d hd
        have hd : d ∈ b :: more := List.mem_cons_of_mem b hd
        refine ⟨(hwide d hd).1, ?_, ?_⟩
        · rw [Nesting.step_of_isWide (hwide d hd).1, Nesting.step_of_isWide hg, hsig hd]
          cases g.isSignificant <;> rfl
        · rw [freshAfter, freshAfter, hsig hd]
          cases g.isSignificant <;> simp

theorem cells_bytesOf (source : List Char) :
    cells (bytesOf source) = (cells source).flatMap Cell.bytes := by
  rw [cells, ← byteGlyphs, byteGlyphs_eq, cellsFrom_bytes]
  rfl

namespace Cell

theorem map_glyph_bytes (c : Cell) : c.bytes.map Cell.glyph = c.glyph.bytes := by
  unfold bytes
  cases c.glyph.bytes with
  | nil => rfl
  | cons g more => simp [Function.comp_def]

theorem length_bytes (c : Cell) : c.bytes.length = c.char.utf8Size := by
  rw [← List.length_map Cell.glyph, map_glyph_bytes, Glyph.bytes, List.length_map,
    length_bytesOf]
  rfl

theorem bytes_ne_nil (c : Cell) : c.bytes ≠ [] := by
  have hpos := c.char.utf8Size_pos
  rw [← c.length_bytes] at hpos
  exact List.ne_nil_of_length_pos hpos

theorem bytes_of_not_isWide {c : Cell} (h : ¬IsWide c.char) : c.bytes = [c] := by
  rcases c.glyph.bytes_cases with ⟨-, hbytes⟩ | ⟨hwide, -⟩
  · rw [bytes, hbytes]
    rfl
  · exact absurd hwide h

theorem depthAfter_of_mem_bytes {b c : Cell} (h : b ∈ c.bytes) : b.depthAfter = c.depthAfter := by
  unfold bytes at h
  split at h
  · cases h
  · rcases List.mem_cons.mp h with rfl | h
    · rfl
    · obtain ⟨_, -, rfl⟩ := List.mem_map.mp h
      rfl

theorem boundary_of_mem_bytes {b c : Cell} (h : b ∈ c.bytes) (hb : b.boundary = true) :
    c.boundary = true := by
  unfold bytes at h
  split at h
  · cases h
  · rcases List.mem_cons.mp h with rfl | h
    · exact hb
    · obtain ⟨_, -, rfl⟩ := List.mem_map.mp h
      cases hb

theorem glyph_mem_bytes {b c : Cell} (h : b ∈ c.bytes) : b.glyph ∈ c.glyph.bytes := by
  rw [← map_glyph_bytes]
  exact List.mem_map_of_mem h

theorem isWide_of_mem_bytes {b c : Cell} (h : b ∈ c.bytes) (hc : IsWide c.char) :
    IsWide b.char := by
  rcases c.glyph.bytes_cases with ⟨hnot, -⟩ | ⟨-, _, _, hbytes, hwide⟩
  · exact absurd hc hnot
  · exact (hwide b.glyph (by rw [← hbytes]; exact glyph_mem_bytes h)).1

end Cell

theorem not_isWide_of_boundary {source : List Char} {c : Cell} (h : c ∈ cells source)
    (hb : c.boundary = true) : ¬IsWide c.char := by
  have hstep {n : Nesting} {fresh : Bool} {gs : List Glyph} (h : c ∈ cellsFrom n fresh gs) :
      ¬IsWide c.char := by
    induction gs generalizing n fresh with
    | nil => cases h
    | cons g gs ih =>
      rw [cellsFrom] at h
      rcases List.mem_cons.mp h with rfl | h
      · intro hwide
        rw [Nesting.isBoundary_of_isWide (show IsWide g.char from hwide)] at hb
        cases hb
      · exact ih h
  exact hstep h

end SnippetRunner.Source
