import SnippetRunner.Proofs.Offset.Capturing
import SnippetRunner.Proofs.Script.Continuation

/-
  Statement ends inside templates. The expressions of a template are code, and the walk over
  brackets counts neither the mark that opens one nor the brace that closes it; so in front of
  every bracket of its own, a template expression is outside all brackets, and a line end or a
  semicolon there can end a statement. `intrusions_behind_loose_breaks` says that this is the only
  way into a template: a statement that begins inside a template expression, be it captured or
  returned, stands behind such a break of the same expression.
-/
namespace SnippetRunner.Script

open SnippetRunner.Text SnippetRunner.Source

/-- The template expressions, innermost first, that are unfinished behind the first `n`
characters of a text; for each the number of braces that were open where it began. -/
def unfinishedAt (source : List Char) (n : Nat) : List Nat :=
  (Lexer.initial.run (source.take n) (source.drop n).head?).substitutions

def InSubstitution (source : List Char) (n : Nat) : Prop := unfinishedAt source n ≠ []

/-- Behind `n` characters, inside a template expression and outside all brackets of the code,
stands a line end or a semicolon. -/
structure LooseBreak (source : List Char) (n : Nat) : Prop where
  inside : InSubstitution source n
  breaks : ∃ c, (cells source)[n]? = some c ∧ c.isCode = true ∧ c.depth = 0 ∧
    (c.char = ';' ∨ c.char = '\n')

/-- A loose break before place `n`, in the template expression that is unfinished there. -/
def BehindLooseBreak (source : List Char) (n : Nat) : Prop :=
  ∃ m < n, LooseBreak source m ∧ unfinishedAt source m = unfinishedAt source n

theorem freshBehind_concat (fresh : Bool) (cs : List Cell) (c : Cell) :
    freshBehind fresh (cs ++ [c]) = freshAfter (freshBehind fresh cs) c.boundary c.glyph := by
  rw [freshBehind, List.foldl_append]
  rfl

/-! ## The lexer at a place -/

section Place

variable {source : List Char} {before after : List Cell} {c : Cell}

theorem unfinishedAt_length (h : cells source = before ++ after) :
    unfinishedAt source before.length =
      (Lexer.initial.run (before.map Cell.char) (after.map Cell.char).head?).substitutions := by
  have hsource : source = before.map Cell.char ++ after.map Cell.char := by
    rw [← List.map_append, ← h, map_char_cells]
  rw [unfinishedAt]
  conv_lhs => rw [hsource]
  rw [List.take_left' (by simp), List.drop_left' (by simp)]

theorem unfinishedAt_zero (source : List Char) : unfinishedAt source 0 = [] := rfl

/-- Only a brace of a template begins or ends a template expression. -/
theorem substitutions_step {l : Lexer} {next : Option Char} {d : Char}
    (h : (l.step d next).1 ≠ .template ∨ (l.Ready (some d) ∧ isAsciiBlank d = true)) :
    (l.step d next).2.substitutions = l.substitutions := by
  have hbrace (hblank : isAsciiBlank d = true) : d ≠ '\x7b' ∧ d ≠ '\x7d' := by
    refine ⟨?_, ?_⟩ <;> rintro rfl <;> exact absurd hblank (by decide)
  cases hm : l.mode with
  | code =>
    rw [Lexer.step_code hm] at h ⊢
    unfold Lexer.stepCode at h ⊢
    split_ifs at h ⊢ with h1 h2 h3 h4 h5 h6
    · rfl
    · rfl
    · rfl
    · rfl
    · rfl
    · have hregion : l.closeBrace.1 ≠ .template :=
        h.resolve_right fun hblank => (hbrace hblank.2).2 h6
      rcases l.closeBrace_cases with ⟨outer, -, e⟩ | e
      · rw [e] at hregion
        exact absurd rfl hregion
      · rw [e]
    · rfl
  | quoted quote =>
    rw [Lexer.step_quoted hm, Lexer.stepQuoted]
    split_ifs <;> rfl
  | quotedEscape quote => rw [Lexer.step_quotedEscape hm]
  | template =>
    rw [Lexer.step_template hm, Lexer.stepTemplate]
    split_ifs <;> rfl
  | templateEscape => rw [Lexer.step_templateEscape hm]
  | substitutionOpen =>
    -- the brace that the mode waits for is no blank
    rw [Lexer.step_substitutionOpen hm] at h
    rcases h with h | ⟨hready, hblank⟩
    · exact absurd rfl h
    · rw [Lexer.Ready, hm] at hready
      exact absurd (Option.some.inj hready) (hbrace hblank).1
  | lineComment =>
    rw [Lexer.step_lineComment hm]
    split <;> rfl
  | commentOpen => rw [Lexer.step_commentOpen hm]
  | blockComment =>
    rw [Lexer.step_blockComment hm]
    split <;> rfl
  | commentClose => rw [Lexer.step_commentClose hm]

theorem region_ne_template_or_blank (hc : c.isCode = true ∨ c.isSignificant = false) :
    c.glyph.region ≠ .template ∨ isAsciiBlank c.char = true := by
  rcases hc with hcode | hnot
  · have hregion : c.glyph.region = .code := by simpa [Cell.isCode, Glyph.isCode] using hcode
    exact Or.inl (by rw [hregion]; decide)
  · by_cases hcomment : c.glyph.region.isComment = true
    · left
      intro e
      rw [e] at hcomment
      cases hcomment
    · right
      simpa [Cell.isSignificant, Glyph.isSignificant, Glyph.isComment, Cell.char, hcomment]
        using hnot

/-- Neither code nor what carries no meaning begins or ends a template expression. -/
theorem unfinishedAt_concat (h : cells source = before ++ c :: after)
    (hc : c.isCode = true ∨ c.isSignificant = false) :
    unfinishedAt source (before ++ [c]).length = unfinishedAt source before.length := by
  have hconcat : cells source = (before ++ [c]) ++ after := by rw [h]; simp
  rw [unfinishedAt_length hconcat, unfinishedAt_length h, List.map_append, List.map_singleton,
    Lexer.run_concat]
  refine substitutions_step ?_
  refine (region_ne_template_or_blank hc).imp (fun hregion => ?_) fun hblank => ⟨?_, hblank⟩
  · rwa [region_eq_step h] at hregion
  · exact Lexer.ready_run (Lexer.ready_initial _)

theorem getElem?_length (h : cells source = before ++ c :: after) :
    (cells source)[before.length]? = some c := by
  rw [h, List.getElem?_append_right (le_refl _), Nat.sub_self]
  rfl

theorem place_eq_of_offset {n : Nat} (h : cells source = before ++ c :: after)
    (hn : utf8Length (source.take n) = utf8Length (before.map Cell.char)) : n = before.length := by
  have htake : (cells source).take n = before := by
    refine (append_inj_of_utf8Length ((List.take_append_drop n _).trans h) ?_).1
    rw [List.map_take, map_char_cells, hn]
  have hlength := congrArg List.length htake
  have htotal := congrArg List.length h
  rw [List.length_take] at hlength
  rw [List.length_append, List.length_cons] at htotal
  omega

/-- A boundary inside a template expression is a loose break. -/
theorem looseBreak_of_boundary (h : cells source = before ++ c :: after)
    (hc : c.boundary = true) (hinside : InSubstitution source before.length) :
    LooseBreak source before.length := by
  have hcell := (congrArg Cell.boundary (cell_eq_cellAt h)).symm.trans hc
  simp only [Progress.cellAt, Nesting.isBoundary, Bool.and_eq_true, Bool.or_eq_true,
    decide_eq_true_eq, List.isEmpty_iff] at hcell
  have hdepth : c.depth = 0 := by
    rw [cell_eq_cellAt h]
    simp [Progress.cellAt, Nesting.depth, hcell.1.2]
  exact ⟨hinside, c, getElem?_length h, hcell.1.1, hdepth, hcell.2.imp And.left And.left⟩

theorem isCode_of_newline (h : cells source = before ++ c :: after) (hc : c.char = '\n')
    (hmode : modeAt source (before ++ [c]).length = .code) : c.isCode = true := by
  have hconcat : cells source = (before ++ [c]) ++ after := by rw [h]; simp
  rw [modeAt_length hconcat, List.map_append, List.map_singleton, Lexer.run_concat, hc] at hmode
  have hready : (Lexer.initial.run (before.map Cell.char) (some '\n')).Ready (some '\n') :=
    Lexer.ready_run (Lexer.ready_initial _)
  rw [Cell.isCode, Glyph.isCode, region_eq_step h, hc]
  exact decide_eq_true ((Lexer.step_newline hready).mpr hmode)

theorem depthAfter_newline (h : cells source = before ++ c :: after) (hc : c.char = '\n') :
    c.depthAfter = c.depth := by
  have hnot : c.glyph.isSignificant = false := by
    refine Glyph.not_significant_of_isAsciiBlank ?_
    rw [show c.glyph.char = '\n' from hc]
    decide
  rw [cell_eq_cellAt h]
  exact congrArg List.length (Progress.openedAfter_of_not_significant hnot)

/-- The start of a statement inside a template expression stands behind a loose break of it. -/
theorem behindLooseBreak_of_fresh (h : cells source = before ++ after)
    (hfresh : freshBehind true before = true) (hinside : InSubstitution source before.length) :
    BehindLooseBreak source before.length := by
  induction before using List.reverseRecOn generalizing after with
  | nil => exact absurd (unfinishedAt_zero source) hinside
  | append_singleton before c ih =>
    have hcons : cells source = before ++ c :: after := by rw [h]; simp
    have hlength : (before ++ [c]).length = before.length + 1 := by simp
    have hsame (hc : c.isCode = true ∨ c.isSignificant = false) :=
      unfinishedAt_concat hcons hc
    rw [freshBehind_concat, freshAfter, Bool.or_eq_true, Bool.and_eq_true] at hfresh
    rcases hfresh with hboundary | ⟨hfresh, hnot⟩
    · have hmem : c ∈ cells source := by rw [hcons]; simp
      rw [cells_eq_cellsTo] at hmem
      have hcode := Or.inl (b := c.isSignificant = false) (Progress.of_boundary hmem hboundary).1
      rw [InSubstitution, hsame hcode] at hinside
      exact ⟨before.length, by omega, looseBreak_of_boundary hcons hboundary hinside,
        (hsame hcode).symm⟩
    · have hnot : c.isSignificant = false := by simpa [Cell.isSignificant] using hnot
      rw [InSubstitution, hsame (Or.inr hnot)] at hinside
      obtain ⟨m, hm, hbreak, hm'⟩ := ih hcons hfresh hinside
      exact ⟨m, by omega, hbreak, hm'.trans (hsame (Or.inr hnot)).symm⟩

end Place

/-! ## Statements -/

theorem freshBehind_of_stands {s : LastStatement} (h : s.Stands) :
    freshBehind true s.before = true := by
  obtain ⟨earlier, lead, hbefore, hearlier, hlead⟩ := h.begins
  rw [hbefore, freshBehind, List.foldl_append, ← freshBehind, ← freshBehind,
    freshBehind_of_not_significant _ hlead, Bool.or_eq_true]
  left
  cases earlier.eq_nil_or_concat' with
  | inl hnil => rw [hnil]; rfl
  | inr hconcat =>
    obtain ⟨init, c, rfl⟩ := hconcat
    have hc : c.boundary = true := hearlier c (by simp)
    rw [freshBehind_concat, freshAfter, hc, Bool.true_or]

section Line

variable {source : List Char} {k : Nat} {line : Line} {e : List Char}

theorem exists_cells_of_reports (h : Reports source k line e) :
    ∃ piece, (cellLines source)[k]? = some piece ∧ line = Line.ofPiece piece ∧
      line.IsCaptured (codeBefore true (lines (cells source)) k)
        ((lines (cells source)).drop (k + 1)) := by
  obtain ⟨j, line', hline', hj, hcaptured⟩ := mem_captures_iff.mp h.captures
  obtain rfl : k = j := by omega
  obtain rfl : line' = line := Option.some.inj (hline'.symm.trans h.atLine)
  rw [lines_cells, List.getElem?_map, Option.map_eq_some_iff] at hline'
  obtain ⟨piece, hpiece, hof⟩ := hline'
  exact ⟨piece, hpiece, hof.symm, (Line.expression?_eq_some_iff.mp hcaptured).1⟩

/-- Where the captured statement of a line begins, the walk has the start of a statement. -/
theorem behindLooseBreak_of_reports (h : Reports source k line e)
    (hinside : InSubstitution source (lineStart source k + line.indent.length)) :
    BehindLooseBreak source (lineStart source k + line.indent.length) := by
  obtain ⟨piece, hpiece, rfl, hcaptured⟩ := exists_cells_of_reports h
  obtain ⟨after, hcontent, -⟩ := (Line.ofPiece piece).content_eq
  have hbegins := hcaptured.begins
  rw [Line.beginsStatement] at hbegins
  cases hstatement : (Line.ofPiece piece).statement with
  | nil =>
    rw [hstatement] at hbegins
    cases hbegins
  | cons c more =>
    rw [hstatement, List.head?_cons, Option.any_some, Bool.and_eq_true] at hbegins
    have hcells : cells source =
        (((cellLines source).take k).flatten ++ (Line.ofPiece piece).indent) ++
          c :: (more ++ after ++ (Line.ofPiece piece).terminator ++
            ((cellLines source).drop (k + 1)).flatten) := by
      have hpieces := cells_eq_of_getElem? hpiece
      have hpiece := Line.cells_ofPiece piece
      rw [Line.cells, hcontent, hstatement] at hpiece
      rw [hpieces]
      conv_lhs => rw [← hpiece]
      simp
    have hplace : lineStart source k + (Line.ofPiece piece).indent.length =
        (((cellLines source).take k).flatten ++ (Line.ofPiece piece).indent).length := by
      rw [lineStart_eq, List.length_append]
    rw [hplace] at hinside ⊢
    refine behindLooseBreak_of_fresh hcells ?_ hinside
    rw [← fresh_of_cellsFrom hcells]
    exact hbegins.2

/-- The line end of a captured line is code outside all brackets. -/
theorem behindLooseBreak_of_line_end (h : Reports source k line e) (hends : HasLineEnd source k)
    (hinside : InSubstitution source (lineStart source (k + 1))) :
    BehindLooseBreak source (lineStart source (k + 1)) := by
  obtain ⟨piece, hpiece, rfl, hcaptured⟩ := exists_cells_of_reports h
  obtain ⟨init, feed, rfl, hchar⟩ := hends.exists_feed hpiece
  have hcells : cells source = (((cellLines source).take k).flatten ++ init) ++
      feed :: ((cellLines source).drop (k + 1)).flatten := by
    rw [cells_eq_of_getElem? hpiece]
    simp
  have hplace : lineStart source (k + 1) =
      ((((cellLines source).take k).flatten ++ init) ++ [feed]).length := by
    rw [lineStart_succ hpiece, List.append_assoc]
  have hcode : feed.isCode = true := by
    have hmode := modeAt_lineEnd hpiece (hends.terminator_ne_nil hpiece) hcaptured.endsInCode
    rw [hplace] at hmode
    exact isCode_of_newline hcells hchar hmode
  have hdepth : feed.depth = 0 := by
    have htop := hcaptured.topLevel
    rw [Line.isTopLevel, Line.cells_ofPiece, List.getLast?_concat, Bool.and_eq_true,
      Option.all_some, decide_eq_true_eq] at htop
    rw [← depthAfter_newline hcells hchar]
    exact htop.2
  have hsame := unfinishedAt_concat hcells (Or.inl hcode)
  rw [hplace] at hinside ⊢
  rw [InSubstitution, hsame] at hinside
  exact ⟨_, by simp, ⟨hinside, feed, getElem?_length hcells, hcode, hdepth, Or.inr hchar⟩,
    hsame.symm⟩

end Line

/-- Every boundary inside a template expression is a line end or a semicolon in its code, outside
all brackets of the code. Behind such a break of the same expression stands whatever else is put
into a template: the beginning and the line end of a captured line, and the beginning of the last
statement. -/
theorem intrusions_behind_loose_breaks (source : List Char) :
    (∀ n, utf8Length (source.take n) ∈ boundaries source → InSubstitution source n →
      LooseBreak source n) ∧
    (∀ k line e, Reports source k line e →
      (InSubstitution source (lineStart source k + line.indent.length) →
        BehindLooseBreak source (lineStart source k + line.indent.length)) ∧
      (HasLineEnd source k → InSubstitution source (lineStart source (k + 1)) →
        BehindLooseBreak source (lineStart source (k + 1)))) ∧
    ∀ s, lastStatement? (cells source) = some s → InSubstitution source s.before.length →
      BehindLooseBreak source s.before.length := by
  refine ⟨fun n hmem hinside => ?_, fun k line e h => ⟨behindLooseBreak_of_reports h,
    behindLooseBreak_of_line_end h⟩, fun s hs hinside => ?_⟩
  · obtain ⟨before, c, after, hcells, hc, hlength⟩ := mem_boundaries_iff.mp hmem
    have hn : n = before.length := place_eq_of_offset hcells hlength
    rw [hn] at hinside ⊢
    exact looseBreak_of_boundary hcells hc hinside
  · have hcells := lastStatement?_append hs
    rw [List.append_assoc] at hcells
    exact behindLooseBreak_of_fresh hcells (freshBehind_of_stands (lastStatement?_stands hs))
      hinside

/-- The line end inside the template ends a statement there, so a capture call and a return
statement come into the template. -/
theorem break_in_template_ends_statement :
    boundaries "\x60$\x7b\na\n\x7d\x60".toList = [3] ∧
      InSubstitution "\x60$\x7b\na\n\x7d\x60".toList 3 ∧
      (instrument "\x60$\x7b\na;\n\x7d\x60".toList).text =
        "\x60$\x7b\n__scratchpad_capture(a, 2);\n\x7d\x60".toList ∧
      (returnLast "\x60$\x7b\nf(1)\n\x7d\x60".toList).text =
        "\x60$\x7b\nreturn f(1)\n\x7d\x60;".toList := by
  refine ⟨by decide, by unfold InSubstitution; decide, by decide, by decide⟩

end SnippetRunner.Script
