import SnippetRunner.Proofs.Script.Wrapping

/-
  The capture pass as a walk over lines. The pass is followed from any line on, in the state in
  which lexer and walk reach it, so what it does to a script can be shown line by line.
-/
namespace SnippetRunner.Script

open SnippetRunner.Text SnippetRunner.Source

/-- The cells of a text that the lexer reaches in state `l` and the walk at `p`. -/
def walk (l : Lexer) (p : Progress) (text : List Char) : List Cell :=
  p.cellsTo (l.glyphsFrom text) []

/-- Line `k` of the given ones is captured. -/
def CapturesLine (fromCode : Bool) : List Line → Nat → Prop
  | [], _ => False
  | line :: following, 0 => line.IsCaptured fromCode following
  | line :: following, k + 1 => CapturesLine (line.cells.getLast?.all Cell.isCode) following k

/-- The instrumented text of lines from `number` on. -/
def instrumentedFrom (number : Nat) (fromCode : Bool) (l : Lexer) (p : Progress)
    (text : List Char) : List Char :=
  (instrumentFrom number fromCode (lines (walk l p text))).flatMap InstrumentedLine.text

theorem capturesLine_iff {fromCode : Bool} {ls : List Line} {k : Nat} :
    CapturesLine fromCode ls k ↔
      ∃ line, ls[k]? = some line ∧
        line.IsCaptured (codeBefore fromCode ls k) (ls.drop (k + 1)) := by
  induction ls generalizing fromCode k with
  | nil => simp [CapturesLine]
  | cons line ls ih =>
    cases k with
    | zero => simp [CapturesLine, codeBefore]
    | succ k =>
      rw [CapturesLine, ih]
      cases k with
      | zero => simp [codeBefore]
      | succ k => simp [codeBefore]

theorem walk_initial (source : List Char) : walk .initial .initial source = cells source :=
  (cells_eq_cellsTo source).symm

theorem instrument_text (source : List Char) :
    (instrument source).text = instrumentedFrom 1 true .initial .initial source := by
  rw [instrumentedFrom, walk_initial]
  rfl

/-- The captures of a script are those of its lines. -/
theorem mem_captures_iff_capturesLine {source : List Char} {k : Nat} :
    (∃ e, (k + 1, e) ∈ (instrument source).captures) ↔
      CapturesLine true (lines (cells source)) k := by
  rw [capturesLine_iff]
  constructor
  · rintro ⟨e, he⟩
    obtain ⟨j, line, hline, hj, hcap⟩ := mem_captures_iff.mp he
    obtain rfl : k = j := by omega
    exact ⟨line, hline, (Line.expression?_eq_some_iff.mp hcap).1⟩
  · rintro ⟨line, hline, hcap⟩
    exact ⟨line.expression, mem_captures_iff.mpr ⟨k, line, hline, rfl,
      Line.expression?_eq_some_iff.mpr ⟨hcap, rfl⟩⟩⟩

/-! ## The first line -/

/-- `line` is the first physical line of the text in which `rest` follows it. -/
structure FirstLine (line rest : List Char) : Prop where
  cut : Cut (· = '\n') [line]
  ended : rest ≠ [] → line.getLast? = some '\n'

/-- Induction over the lines of a text. -/
theorem lines_induction {P : List Char → Prop} (nil : P [])
    (line : ∀ {line rest}, FirstLine line rest → P rest → P (line ++ rest)) (text : List Char) :
    P text := by
  have h {pieces : List (List Char)} (hcut : Cut (· = '\n') pieces) : P pieces.flatten := by
    induction hcut with
    | nil => exact nil
    | unclosed hne hu =>
      rw [List.flatten_cons]
      exact line ⟨.unclosed hne hu, fun h => absurd rfl h⟩ nil
    | closed hu hm _ ih =>
      rw [List.flatten_cons]
      refine line ⟨.closed hu hm .nil, fun _ => ?_⟩ ih
      rw [List.getLast?_concat, of_decide_eq_true hm]
  rw [← flatten_splitAfter (· = '\n') text]
  exact h (cut_splitAfter _ _)

theorem step_newline_eq (l : Lexer) (next next' : Option Char) :
    l.step '\n' next = l.step '\n' next' := by
  cases hm : l.mode with
  | code => simp [Lexer.step_code hm, Lexer.stepCode]
  | template => simp [Lexer.step_template hm, Lexer.stepTemplate]
  | blockComment => simp [Lexer.step_blockComment hm]
  | _ => unfold Lexer.step; rw [hm]

/-- What follows a line end does not matter to how the part before is read. -/
theorem glyphsTo_of_feed (l : Lexer) {part : List Char}
    (h : part = [] ∨ part.getLast? = some '\n') (next : Option Char) :
    l.glyphsTo part next = l.glyphsTo part none ∧ l.run part next = l.run part none := by
  rcases h with rfl | hlast
  · exact ⟨rfl, rfl⟩
  · obtain ⟨init, rfl⟩ := List.getLast?_eq_some_iff.mp hlast
    exact Lexer.glyphsTo_eq_of_last (step_newline_eq (l.run init (some '\n')) next none)

/-- The glyphs of a line, with a line end or without, are one piece. -/
theorem cut_glyphsTo (l : Lexer) {line : List Char} (next : Option Char)
    (h : Cut (· = '\n') [line]) : Cut (·.char = '\n') [l.glyphsTo line next] := by
  refine Cut.of_map (q := (· = '\n')) (f := Glyph.char) (fun _ => rfl) ?_
  rwa [Lexer.map_char_glyphsTo]

theorem glyphsTo_ne_nil (l : Lexer) {line : List Char} (next : Option Char)
    (h : Cut (· = '\n') [line]) : l.glyphsTo line next ≠ [] :=
  (cut_glyphsTo l next h).ne_nil (List.mem_singleton_self _)

section FirstLine

variable {l : Lexer} {p : Progress} {line rest : List Char}

/-- Read in any state, a line has parts. -/
theorem FirstLine.nonempty_parts (h : FirstLine line rest) (l : Lexer) :
    Nonempty (Parts (l.glyphsTo line none)) :=
  Parts.exists_of_cut (cut_glyphsTo l none h.cut)

/-- The next line is read in the state at the end of the line. -/
theorem FirstLine.run (h : FirstLine line rest) (next : Option Char) :
    l.run line (rest.head?.or next) = l.run line next := by
  cases rest with
  | nil => rfl
  | cons c rest =>
    have hlast := h.ended (List.cons_ne_nil _ _)
    rw [(glyphsTo_of_feed l (Or.inr hlast) next).2]
    exact (glyphsTo_of_feed l (Or.inr hlast) _).2

theorem FirstLine.glyphsFrom (h : FirstLine line rest) :
    l.glyphsFrom (line ++ rest) =
      l.glyphsTo line none ++ (l.run line none).glyphsFrom rest := by
  have hrun := h.run (l := l) none
  rw [Option.or_none] at hrun
  rw [Lexer.glyphsFrom_append, hrun]
  cases rest with
  | nil => rfl
  | cons c rest =>
    rw [(glyphsTo_of_feed l (Or.inr (h.ended (List.cons_ne_nil _ _))) _).1]

theorem FirstLine.walk_eq (h : FirstLine line rest) :
    walk l p (line ++ rest) =
      p.cellsTo (l.glyphsTo line none) ((l.run line none).glyphsFrom rest) ++
        walk (l.run line none) (p.run (l.glyphsTo line none)) rest := by
  rw [walk, h.glyphsFrom, Progress.cellsTo_append, List.append_nil]
  rfl

theorem map_glyph_walk (l : Lexer) (p : Progress) (text : List Char) :
    (walk l p text).map Cell.glyph = l.glyphsFrom text :=
  Progress.map_glyph_cellsTo _ _ _

theorem map_glyph_lines_walk (l : Lexer) (p : Progress) (text : List Char) :
    ((lines (walk l p text)).flatMap Line.cells).map Cell.glyph = l.glyphsFrom text := by
  rw [flatMap_cells_lines, map_glyph_walk]

/-- The lines of the walk are the first line and the lines of the walk over what follows. -/
theorem FirstLine.lines_walk (h : FirstLine line rest) :
    lines (walk l p (line ++ rest)) =
      Line.ofPiece (p.cellsTo (l.glyphsTo line none) ((l.run line none).glyphsFrom rest)) ::
        lines (walk (l.run line none) (p.run (l.glyphsTo line none)) rest) := by
  rw [h.walk_eq, lines, splitAfter_append_piece, List.map_cons]
  · rfl
  · refine Cut.of_map (q := (·.char = '\n')) (f := Cell.glyph) (fun _ => rfl) ?_
    rw [Progress.map_glyph_cellsTo]
    exact cut_glyphsTo l none h.cut
  · intro hne
    have hrest : rest ≠ [] := by
      rintro rfl
      exact hne rfl
    have hlast := h.ended hrest
    rw [← Lexer.map_char_glyphsTo l line none,
      ← Progress.map_char_cellsTo p _ ((l.run line none).glyphsFrom rest), List.getLast?_map,
      Option.map_eq_some_iff] at hlast
    obtain ⟨c, hc, hchar⟩ := hlast
    rw [hc, Option.any_some, hchar]
    rfl

theorem getLast?_cells_ofPiece (p : Progress) (gs f : List Glyph) :
    (Line.ofPiece (p.cellsTo gs f)).cells.getLast?.all Cell.isCode =
      gs.getLast?.all Glyph.isCode := by
  rw [Line.cells_ofPiece, ← congrArg List.getLast? (Progress.map_glyph_cellsTo p gs f),
    List.getLast?_map]
  cases (p.cellsTo gs f).getLast? <;> rfl

variable (parts : Parts (l.glyphsTo line none)) (fromCode : Bool) (number : Nat)

theorem FirstLine.isCaptured_iff (h : FirstLine line rest) :
    (Line.ofPiece (p.cellsTo (l.glyphsTo line none) ((l.run line none).glyphsFrom rest))).IsCaptured
        fromCode (lines (walk (l.run line none) (p.run (l.glyphsTo line none)) rest)) ↔
      Captures parts p fromCode ((l.run line none).glyphsFrom rest) :=
  parts.isCaptured_iff p (glyphsTo_ne_nil l none h.cut) fromCode (map_glyph_lines_walk _ _ _)

theorem FirstLine.capturesLine_zero (h : FirstLine line rest) :
    CapturesLine fromCode (lines (walk l p (line ++ rest))) 0 ↔
      Captures parts p fromCode ((l.run line none).glyphsFrom rest) := by
  rw [h.lines_walk, CapturesLine]
  exact h.isCaptured_iff parts fromCode

theorem FirstLine.capturesLine_succ (h : FirstLine line rest) (k : Nat) :
    CapturesLine fromCode (lines (walk l p (line ++ rest))) (k + 1) ↔
      CapturesLine ((l.glyphsTo line none).getLast?.all Glyph.isCode)
        (lines (walk (l.run line none) (p.run (l.glyphsTo line none)) rest)) k := by
  rw [h.lines_walk, CapturesLine, getLast?_cells_ofPiece]

theorem FirstLine.instrumentedFrom_eq (h : FirstLine line rest) :
    instrumentedFrom number fromCode l p (line ++ rest) =
      (instrumentLine number fromCode
        (Line.ofPiece (p.cellsTo (l.glyphsTo line none) ((l.run line none).glyphsFrom rest)))
        (lines (walk (l.run line none) (p.run (l.glyphsTo line none)) rest))).text ++
      instrumentedFrom (number + 1) ((l.glyphsTo line none).getLast?.all Glyph.isCode)
        (l.run line none) (p.run (l.glyphsTo line none)) rest := by
  rw [instrumentedFrom, h.lines_walk, instrumentFrom, List.flatMap_cons, getLast?_cells_ofPiece]
  rfl

/-- A line that is not captured has no expression to report. -/
theorem FirstLine.expression?_eq_none (h : FirstLine line rest)
    (hcap : ¬Captures parts p fromCode ((l.run line none).glyphsFrom rest)) :
    (Line.ofPiece (p.cellsTo (l.glyphsTo line none)
      ((l.run line none).glyphsFrom rest))).expression? fromCode
        (lines (walk (l.run line none) (p.run (l.glyphsTo line none)) rest)) = none := by
  by_contra hne
  obtain ⟨e, he⟩ := Option.ne_none_iff_exists'.mp hne
  exact hcap ((h.isCaptured_iff parts fromCode).mp (Line.expression?_eq_some_iff.mp he).1)

/-- A captured line is wrapped. -/
theorem FirstLine.instrumentedFrom_captured (h : FirstLine line rest)
    (hcap : Captures parts p fromCode ((l.run line none).glyphsFrom rest)) :
    instrumentedFrom number fromCode l p (line ++ rest) = wrapped parts number ++
      instrumentedFrom (number + 1) ((l.glyphsTo line none).getLast?.all Glyph.isCode)
        (l.run line none) (p.run (l.glyphsTo line none)) rest := by
  have hsome := Line.expression?_eq_some_iff.mpr ⟨(h.isCaptured_iff parts fromCode).mpr hcap, rfl⟩
  rw [h.instrumentedFrom_eq, instrumentLine, hsome]
  dsimp only
  rw [parts.expression_eq, parts.indent_eq, parts.line_eq, Progress.map_char_cellsTo,
    Progress.map_char_cellsTo, wrapped]

/-- Any other line is kept. -/
theorem FirstLine.instrumentedFrom_kept (h : FirstLine line rest)
    (hcap : ¬Captures parts p fromCode ((l.run line none).glyphsFrom rest)) :
    instrumentedFrom number fromCode l p (line ++ rest) = line ++
      instrumentedFrom (number + 1) ((l.glyphsTo line none).getLast?.all Glyph.isCode)
        (l.run line none) (p.run (l.glyphsTo line none)) rest := by
  rw [h.instrumentedFrom_eq, instrumentLine, h.expression?_eq_none parts fromCode hcap]
  dsimp only
  rw [text_ofPiece, Progress.map_char_cellsTo, Lexer.map_char_glyphsTo]

end FirstLine

end SnippetRunner.Script
