import SnippetRunner.Proofs.Script.Lines

/-
  A physical line as glyphs. `Parts` cuts it into its indentation, its statement, what nothing
  significant stands in, and its line end; the cut depends on the glyphs alone, while the flags
  of the cells depend on the walk. So `Captures` says when a line is captured from the state of
  the walk at its start.
-/
namespace SnippetRunner.Script

open SnippetRunner.Text SnippetRunner.Source

/-- The glyphs of a line, cut. -/
structure Parts (gs : List Glyph) where
  indent : List Glyph
  statement : List Glyph
  after : List Glyph
  terminator : List Glyph
  join : gs = indent ++ (statement ++ after) ++ terminator
  indentBlank : ∀ g ∈ indent, isAsciiBlank g.char = true
  headNotBlank : ∀ g ∈ (statement ++ after).head?, isAsciiBlank g.char = false
  lastSignificant : ∀ g ∈ statement.getLast?, g.isSignificant = true
  afterNot : ∀ g ∈ after, g.isSignificant = false
  feedless : ∀ g ∈ indent ++ (statement ++ after), g.char ≠ '\n'
  terminated : terminator = [] ∨ ∃ feed, feed.char = '\n' ∧
    ((terminator = [feed] ∧ ∀ g ∈ (indent ++ (statement ++ after)).getLast?, g.char ≠ '\r') ∨
      ∃ ret, ret.char = '\r' ∧ terminator = [ret, feed])

theorem upToLast_append_of_not {α : Type} {p : α → Bool} {s after : List α}
    (hs : ∀ a ∈ s.getLast?, p a = true) (hafter : ∀ a ∈ after, p a = false) :
    upToLast p (s ++ after) = s := by
  have hnot : ∀ a ∈ after.reverse, (!p a) = true := fun a ha => by
    rw [hafter a (List.mem_reverse.mp ha)]
    rfl
  rw [upToLast, List.reverse_append, List.dropWhile_append_of_pos hnot]
  cases hr : s.reverse with
  | nil => rw [List.reverse_eq_nil_iff.mp hr]; rfl
  | cons a rest =>
    have ha : p a = true := hs a (by rw [← List.head?_reverse, hr]; rfl)
    rw [List.dropWhile_cons_of_neg (by simp [ha]), ← hr, List.reverse_reverse]

theorem takeWhile_eq_nil {α : Type} {p : α → Bool} {s : List α}
    (h : ∀ a ∈ s.head?, p a = false) : s.takeWhile p = [] := by
  cases s with
  | nil => rfl
  | cons a s => exact List.takeWhile_cons_of_neg (by simp [h a rfl])

theorem dropWhile_eq_self {α : Type} {p : α → Bool} {s : List α}
    (h : ∀ a ∈ s.head?, p a = false) : s.dropWhile p = s := by
  cases s with
  | nil => rfl
  | cons a s => exact List.dropWhile_cons_of_neg (by simp [h a rfl])

theorem Line.ofPiece_return {before : List Cell} {ret feed : Cell} (hr : ret.char = '\r')
    (hf : feed.char = '\n') : Line.ofPiece (before ++ [ret, feed]) = ⟨before, [ret, feed]⟩ := by
  have e : before ++ [ret, feed] = (before ++ [ret]) ++ [feed] := by
    rw [List.append_assoc]
    rfl
  rw [e, ofPiece, List.reverse_append, List.reverse_append]
  simp [hr, hf]

namespace Parts

variable {gs : List Glyph} (parts : Parts gs) (p : Progress) (following : List Glyph)

/-- The glyphs before the line end. -/
def content : List Glyph := parts.indent ++ (parts.statement ++ parts.after)

/-- The text of the expression of a line. -/
def expression : List Char := trimEnd (dropSemicolon (parts.statement.map Glyph.char))

/-- A line as its statement and what stands around it. -/
theorem join_statement :
    gs = parts.indent ++ (parts.statement ++ (parts.after ++ parts.terminator)) := by
  have hjoin := parts.join
  simp only [List.append_assoc] at hjoin
  exact hjoin

/-- The walk over a line whose statement ends in `g`. -/
theorem run_eq {init : List Glyph} {g : Glyph} (h : parts.statement = init ++ [g]) :
    p.run gs =
      ((p.run (parts.indent ++ init)).step g).run (parts.after ++ parts.terminator) := by
  conv_lhs => rw [parts.join_statement, h]
  rw [← List.append_assoc, Progress.run_append, ← List.append_assoc, Progress.run_concat]

theorem join_following : gs ++ following =
    parts.indent ++ (parts.statement ++ (parts.after ++ (parts.terminator ++ following))) := by
  have hjoin := congrArg (· ++ following) parts.join_statement
  simp only [List.append_assoc] at hjoin
  exact hjoin

theorem indent_not : ∀ g ∈ parts.indent, g.isSignificant = false := by
  intro g hg
  rw [Glyph.isSignificant, parts.indentBlank g hg, Bool.not_true, Bool.and_false]

theorem indent_feedless : ∀ g ∈ parts.indent, g.char ≠ '\n' :=
  fun g hg => parts.feedless g (List.mem_append_left _ hg)

theorem cells_eq : p.cellsTo gs following =
    p.cellsTo parts.content (parts.terminator ++ following) ++
      (p.run parts.content).cellsTo parts.terminator following := by
  conv_lhs => rw [parts.join]
  exact p.cellsTo_append _ _ _

/-- The line of the cells of the glyphs. -/
theorem line_eq : Line.ofPiece (p.cellsTo gs following) =
    ⟨p.cellsTo parts.content (parts.terminator ++ following),
      (p.run parts.content).cellsTo parts.terminator following⟩ := by
  have hcontent : ∀ c ∈ p.cellsTo parts.content (parts.terminator ++ following),
      c.char ≠ '\n' := by
    intro c hc
    refine parts.feedless c.glyph ?_
    rw [← content, ← Progress.map_glyph_cellsTo p parts.content (parts.terminator ++ following)]
    exact List.mem_map_of_mem hc
  rw [parts.cells_eq]
  rcases parts.terminated with ht | ⟨feed, hfeed, ⟨ht, hlast⟩ | ⟨ret, hret, ht⟩⟩
  · rw [ht] at hcontent ⊢
    rw [Progress.cellsTo, List.append_nil]
    exact Line.ofPiece_unmarked hcontent
  · rw [ht, Progress.cellsTo, Progress.cellsTo]
    have hcell : ((p.run parts.content).cellAt feed ([] ++ following)).char = '\n' := hfeed
    rcases Line.ofPiece_feed (p.cellsTo parts.content ([feed] ++ following)) hcell with
      e | ⟨before, c, hc, hr, -⟩
    · exact e
    · -- a carriage return would be the last glyph of the content
      exfalso
      obtain ⟨hg, -, -⟩ := Progress.cellsTo_eq_append hc
      rw [List.map_singleton] at hg
      have hmem : c.glyph ∈ (parts.indent ++ (parts.statement ++ parts.after)).getLast? := by
        rw [← content, hg, List.getLast?_concat]
        rfl
      exact hlast _ hmem hr
  · rw [ht, Progress.cellsTo, Progress.cellsTo, Progress.cellsTo]
    exact Line.ofPiece_return hret hfeed

/-- The cells of the content, cut like its glyphs. -/
theorem content_cells : p.cellsTo parts.content (parts.terminator ++ following) =
    p.cellsTo parts.indent (parts.statement ++ parts.after ++ (parts.terminator ++ following)) ++
      ((p.run parts.indent).cellsTo parts.statement
          (parts.after ++ (parts.terminator ++ following)) ++
        ((p.run parts.indent).run parts.statement).cellsTo parts.after
          (parts.terminator ++ following)) := by
  rw [content, Progress.cellsTo_append, Progress.cellsTo_append]

theorem indent_cells_blank (f : List Glyph) :
    ∀ c ∈ p.cellsTo parts.indent f, isAsciiBlank c.char = true := by
  intro c hc
  refine parts.indentBlank c.glyph ?_
  rw [← Progress.map_glyph_cellsTo p parts.indent f]
  exact List.mem_map_of_mem hc

/-- What follows the indentation does not begin with a blank. -/
theorem rest_cells_head (f : List Glyph) :
    ∀ c ∈ (p.cellsTo (parts.statement ++ parts.after) f).head?, isAsciiBlank c.char = false := by
  intro c hc
  refine parts.headNotBlank c.glyph ?_
  rw [← Progress.map_glyph_cellsTo p (parts.statement ++ parts.after) f, List.head?_map]
  exact Option.mem_map_of_mem _ hc

theorem indent_eq : (Line.ofPiece (p.cellsTo gs following)).indent =
    p.cellsTo parts.indent (parts.statement ++ parts.after ++ (parts.terminator ++ following)) := by
  have hrest := parts.rest_cells_head (p.run parts.indent) (parts.terminator ++ following)
  rw [Progress.cellsTo_append] at hrest
  rw [Line.indent, parts.line_eq, parts.content_cells,
    List.takeWhile_append_of_pos (parts.indent_cells_blank p _), takeWhile_eq_nil hrest,
    List.append_nil]

theorem statement_eq : (Line.ofPiece (p.cellsTo gs following)).statement =
    (p.run parts.indent).cellsTo parts.statement
      (parts.after ++ (parts.terminator ++ following)) := by
  have hrest := parts.rest_cells_head (p.run parts.indent) (parts.terminator ++ following)
  rw [Progress.cellsTo_append] at hrest
  rw [Line.statement, parts.line_eq, parts.content_cells,
    List.dropWhile_append_of_pos (parts.indent_cells_blank p _), dropWhile_eq_self hrest]
  refine upToLast_append_of_not ?_ ?_
  · intro c hc
    refine parts.lastSignificant c.glyph ?_
    rw [← Progress.map_glyph_cellsTo (p.run parts.indent) parts.statement
      (parts.after ++ (parts.terminator ++ following)), List.getLast?_map]
    exact Option.mem_map_of_mem _ hc
  · intro c hc
    refine parts.afterNot c.glyph ?_
    rw [← Progress.map_glyph_cellsTo ((p.run parts.indent).run parts.statement) parts.after
      (parts.terminator ++ following)]
    exact List.mem_map_of_mem hc

/-- Cuts a line whose content and line end are known. -/
theorem exists_of_content {content terminator : List Glyph}
    (hfeedless : ∀ g ∈ content, g.char ≠ '\n')
    (hterminated : terminator = [] ∨ ∃ feed, feed.char = '\n' ∧
      ((terminator = [feed] ∧ ∀ g ∈ content.getLast?, g.char ≠ '\r') ∨
        ∃ ret, ret.char = '\r' ∧ terminator = [ret, feed])) :
    Nonempty (Parts (content ++ terminator)) := by
  obtain ⟨after, hafter, hnot⟩ := upToLast_append Glyph.isSignificant
    (content.dropWhile (isAsciiBlank ·.char))
  have hcontent : content = content.takeWhile (isAsciiBlank ·.char) ++
      (upToLast Glyph.isSignificant (content.dropWhile (isAsciiBlank ·.char)) ++ after) := by
    rw [← hafter, List.takeWhile_append_dropWhile]
  refine ⟨⟨content.takeWhile (isAsciiBlank ·.char),
    upToLast Glyph.isSignificant (content.dropWhile (isAsciiBlank ·.char)), after, terminator,
    by rw [← hcontent], fun g hg => ?_, fun g hg => ?_, fun g hg => getLast?_upToLast hg, hnot,
    by rwa [← hcontent], by rwa [← hcontent]⟩⟩
  · exact List.mem_takeWhile_imp (p := fun g : Glyph => isAsciiBlank g.char) hg
  · rw [← hafter] at hg
    have h := List.head?_dropWhile_not (fun g : Glyph => isAsciiBlank g.char) content
    rw [Option.mem_def.mp hg] at h
    simpa using h

/-- Every physical line can be cut. -/
theorem exists_of_cut {gs : List Glyph} (h : Cut (·.char = '\n') [gs]) : Nonempty (Parts gs) := by
  cases h with
  | unclosed _ hu =>
    have h : Nonempty (Parts (gs ++ [])) :=
      exists_of_content (fun g hg => by simpa using hu g hg) (Or.inl rfl)
    rwa [List.append_nil] at h
  | @closed init feed _ hu hm _ =>
    have hfeed : feed.char = '\n' := by simpa using hm
    have hinit : ∀ g ∈ init, g.char ≠ '\n' := fun g hg => by simpa using hu g hg
    by_cases hret : ∀ g ∈ init.getLast?, g.char ≠ '\r'
    · exact exists_of_content hinit (Or.inr ⟨feed, hfeed, Or.inl ⟨rfl, hret⟩⟩)
    · push Not at hret
      obtain ⟨ret, hlast, hchar⟩ := hret
      obtain ⟨before, rfl⟩ := List.getLast?_eq_some_iff.mp hlast
      rw [List.append_assoc]
      exact exists_of_content (fun g hg => hinit g (List.mem_append_left _ hg))
        (Or.inr ⟨feed, hfeed, Or.inr ⟨ret, hchar, rfl⟩⟩)

end Parts

/-! ## When a line is captured -/

/-- A line is captured that is reached by the walk at `p`, from code if `fromCode` tells so, and
that `following` follows. -/
structure Captures {gs : List Glyph} (parts : Parts gs) (p : Progress) (fromCode : Bool)
    (following : List Glyph) : Prop where
  outer : p.isOuter = true
  outerAfter : (p.run gs).isOuter = true
  fromCode : fromCode = true
  endsInCode : parts.terminator.head?.all Glyph.isCode = true
  begins : ∃ g ∈ parts.statement.head?, g.isComment = false ∧
    (p.ended || (p.broken && !isContinuation g.char)) = true
  form : isSkippedForm (parts.statement.map Glyph.char) = false
  single : (p.run parts.indent).endsWithin parts.statement.dropLast = false
  ends : parts.statement.getLast?.map Glyph.char = some ';' ∨ parts.terminator = [] ∨
    continuesIn following = false
  nonempty : parts.expression ≠ []

namespace Parts

variable {gs : List Glyph} (parts : Parts gs) (p : Progress)

theorem isTopLevel_iff (following : List Glyph) (hne : gs ≠ []) :
    (Line.ofPiece (p.cellsTo gs following)).isTopLevel = true ↔
      p.isOuter = true ∧ (p.run gs).isOuter = true := by
  obtain ⟨init, last, rfl⟩ := List.eq_nil_or_concat' gs |>.resolve_left hne
  obtain ⟨first, rest, hfirst⟩ := List.exists_cons_of_ne_nil hne
  rw [Line.isTopLevel, Line.cells_ofPiece, Progress.getLast?_cellsTo, Progress.run_concat]
  rw [hfirst, Progress.head?_cellsTo]
  simp [Progress.cellAt, Nesting.depth, Progress.isOuter, Progress.step]

/-- The first character of the statement begins it exactly if the walk has it so at the start of
the line. -/
theorem beginsStatement_iff (following : List Glyph) :
    (Line.ofPiece (p.cellsTo gs following)).beginsStatement = true ↔
      ∃ g ∈ parts.statement.head?, g.isComment = false ∧
        (p.ended || (p.broken && !isContinuation g.char)) = true := by
  rw [Line.beginsStatement, parts.statement_eq]
  cases hs : parts.statement with
  | nil => simp [Progress.cellsTo]
  | cons g rest =>
    rw [Progress.head?_cellsTo, Option.any_some]
    have hended := p.run_ended_of_not parts.indent_not
    have hbroken := p.run_broken_of_not parts.indent_not parts.indent_feedless
    have hcomment : ((p.run parts.indent).cellAt g
        (rest ++ (parts.after ++ (parts.terminator ++ following)))).isComment = g.isComment := rfl
    have hfresh : ((p.run parts.indent).cellAt g
        (rest ++ (parts.after ++ (parts.terminator ++ following)))).fresh =
          (p.run parts.indent).isFresh
            (g :: (rest ++ (parts.after ++ (parts.terminator ++ following)))) := rfl
    rw [hcomment, hfresh, Progress.isFresh, hended, hbroken]
    have hblank : isAsciiBlank g.char = false := parts.headNotBlank g (by rw [hs]; rfl)
    cases hc : g.isComment with
    | true => simp [hc]
    | false =>
      have hsig : g.isSignificant = true := by rw [Glyph.isSignificant, hc, hblank]; rfl
      rw [continuesIn_cons_of_significant hsig]
      simp [hc]

theorem isSingle_eq (following : List Glyph) :
    (Line.ofPiece (p.cellsTo gs following)).isSingle =
      !(p.run parts.indent).endsWithin parts.statement.dropLast := by
  rw [Line.isSingle, parts.statement_eq]
  cases hs : parts.statement.eq_nil_or_concat' with
  | inl hnil => rw [hnil]; rfl
  | inr hconcat =>
    obtain ⟨init, last, e⟩ := hconcat
    rw [e, Progress.dropLast_cellsTo, List.dropLast_concat, Progress.any_boundary_cellsTo]
    intro g hg
    refine parts.feedless g (List.mem_append_right _ (List.mem_append_left _ ?_))
    rw [e]
    exact List.mem_append_left _ hg

theorem expression_eq (following : List Glyph) :
    (Line.ofPiece (p.cellsTo gs following)).expression = parts.expression := by
  rw [Line.expression, parts.statement_eq, Progress.map_char_cellsTo, expression]

/-- The capture pass captures a line exactly if `Captures` says so. -/
theorem isCaptured_iff (hne : gs ≠ []) (fromCode : Bool) {following : List Line}
    {f : List Glyph} (hf : (following.flatMap Line.cells).map Cell.glyph = f) :
    (Line.ofPiece (p.cellsTo gs f)).IsCaptured fromCode following ↔
      Captures parts p fromCode f := by
  have htop := isTopLevel_iff p f hne
  have hbegins := parts.beginsStatement_iff p f
  have hsingle := parts.isSingle_eq p f
  have hexpression := parts.expression_eq p f
  have hform : (Line.ofPiece (p.cellsTo gs f)).statement.map Cell.char =
      parts.statement.map Glyph.char := by
    rw [parts.statement_eq, Progress.map_char_cellsTo]
  have hterminator : (Line.ofPiece (p.cellsTo gs f)).terminator =
      (p.run parts.content).cellsTo parts.terminator f := by
    rw [parts.line_eq]
  have hcode : (Line.ofPiece (p.cellsTo gs f)).terminator.head?.all Cell.isCode =
      parts.terminator.head?.all Glyph.isCode := by
    rw [hterminator]
    cases parts.terminator <;> rfl
  have hends : (Line.ofPiece (p.cellsTo gs f)).endsStatement following = true ↔
      (parts.statement.getLast?.map Glyph.char = some ';' ∨ parts.terminator = [] ∨
        continuesIn f = false) := by
    rw [Line.endsStatement, ← List.getLast?_map, hform, List.getLast?_map, hterminator, hf]
    simp [Progress.cellsTo_eq_nil, or_assoc]
  constructor
  · intro h
    exact ⟨(htop.mp h.topLevel).1, (htop.mp h.topLevel).2, h.fromCode, hcode ▸ h.endsInCode,
      hbegins.mp h.begins, hform ▸ h.form, by simpa [hsingle] using h.single, hends.mp h.ends,
      hexpression ▸ h.nonempty⟩
  · intro h
    exact ⟨htop.mpr ⟨h.outer, h.outerAfter⟩, h.fromCode, hcode.trans h.endsInCode,
      hbegins.mpr h.begins, by rw [hform]; exact h.form, by rw [hsingle, h.single]; rfl,
      hends.mpr h.ends, by rw [hexpression]; exact h.nonempty⟩

end Parts

end SnippetRunner.Script
