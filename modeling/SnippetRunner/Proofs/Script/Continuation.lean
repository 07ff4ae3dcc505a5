import SnippetRunner.Proofs.Script.LineAttribution
import SnippetRunner.Proofs.Script.Returned
import SnippetRunner.Proofs.Source.Boundaries

/-
  Statements over several lines. The character that goes on with a statement is looked for behind
  a line end, never before it: an operator that lacks its operand does not keep a line end from
  being a boundary. `dangling_operator_continued` says when such a line end is one, and that a
  statement is not cut behind the operator where the next significant character goes on with it:
  neither of the two lines is captured, and no returned statement begins between them.
-/
namespace SnippetRunner.Script

open SnippetRunner.Text SnippetRunner.Source

/-- Operators and separators that an expression does not end with; signs are a case of their
own. -/
def operandChars : List Char := [',', '=', '*', '%', '&', '|', '^', '<', '?', ':']

/-- Whether `c`, with `before` in front of it, last first, lacks an operand to its right. A sign
does unless it is the second of a pair, which may end an expression. -/
def lacksOperand (before : List Char) (c : Char) : Bool :=
  operandChars.contains c
    || ((c = '+' || c = '-') && (before.takeWhile (· = c)).length % 2 = 0)

/-- A code line end outside all brackets, before which the last significant character is code that
lacks an operand. -/
structure Dangles (source : List Char) (lead : List Cell) (operator : Cell) (gap : List Cell)
    (feed : Cell) (after : List Cell) : Prop where
  join : cells source = lead ++ operator :: (gap ++ feed :: after)
  code : operator.isCode = true
  lacks : lacksOperand (lead.map Cell.char).reverse operator.char = true
  between : ∀ c ∈ gap, c.isSignificant = false
  feedChar : feed.char = '\n'
  feedCode : feed.isCode = true
  outer : feed.depth = 0

/-- Two neighbouring significant characters on different lines, of which the first does not end a
statement and the second goes on with it. -/
structure Continued (source : List Char) (lead : List Cell) (last : Cell) (gap : List Cell)
    (next : Cell) (rest : List Cell) : Prop where
  join : cells source = lead ++ last :: (gap ++ next :: rest)
  significant : last.isSignificant = true
  unfinished : last.char ≠ ';'
  between : ∀ c ∈ gap, c.isSignificant = false
  feed : ∃ c ∈ gap, c.char = '\n'
  nextSignificant : next.isSignificant = true
  continues : isContinuation next.char = true

/-- A statement is not cut behind `last`, which `gap` and the next significant character follow:
the lines of the two are left as they are, and no returned statement begins behind `gap`. -/
structure Uncut (source : List Char) (lead : List Cell) (last : Cell) (gap : List Cell) :
    Prop where
  keepsLast : Keeps source (newlines (lead.map Cell.char))
  keepsNext : Keeps source (newlines ((lead ++ last :: gap).map Cell.char))
  unreturned : ∀ s, lastStatement? (cells source) = some s → s.before ≠ lead ++ last :: gap

/-! ## Cells in their places -/

section

variable {source : List Char} {before after : List Cell} {c : Cell}

theorem cell_eq_cellAt (h : cells source = before ++ c :: after) :
    c = (Progress.initial.run (before.map Cell.glyph)).cellAt c.glyph (after.map Cell.glyph) := by
  obtain ⟨-, -, hrest⟩ := cells_of_append h
  rw [List.map_cons, Progress.cellsTo, List.append_nil] at hrest
  exact (List.cons.inj hrest).1

/-- Outside all brackets a line end in code is a boundary unless what follows goes on. -/
theorem boundary_of_feed (h : cells source = before ++ c :: after) (hchar : c.char = '\n')
    (hcode : c.isCode = true) (hdepth : c.depth = 0) :
    c.boundary = !continuesIn (after.map Cell.glyph) := by
  have hcell := cell_eq_cellAt h
  have hopened := (congrArg Cell.depth hcell).symm.trans hdepth
  have hempty := List.length_eq_zero_iff.mp hopened
  have hglyph : c.glyph.char = '\n' := hchar
  have hregion : c.glyph.isCode = true := hcode
  refine (congrArg Cell.boundary hcell).trans ?_
  simp only [Progress.cellAt, Nesting.isBoundary, hempty, hglyph, hregion]
  simp

theorem continuesIn_of_boundary (h : cells source = before ++ c :: after) (hchar : c.char = '\n')
    (hboundary : c.boundary = true) : continuesIn (after.map Cell.glyph) = false := by
  have hglyph : c.glyph.char = '\n' := hchar
  have hcell := (congrArg Cell.boundary (cell_eq_cellAt h)).symm.trans hboundary
  simp only [Progress.cellAt, Nesting.isBoundary, hglyph, Bool.and_eq_true] at hcell
  simpa using hcell.2

end

/-! ## Continued statements -/

namespace Continued

variable {source : List Char} {lead gap rest : List Cell} {last next : Cell}

theorem join_next (h : Continued source lead last gap next rest) :
    cells source = (lead ++ last :: gap) ++ next :: rest := by
  rw [h.join, List.append_assoc, List.cons_append]

theorem continuesIn_next (h : Continued source lead last gap next rest) {part : List Cell}
    (hpart : ∀ c ∈ part, c.isSignificant = false) :
    continuesIn ((part ++ next :: rest).map Cell.glyph) = true := by
  rw [List.map_append, continuesIn_append_of_not, List.map_cons,
    continuesIn_cons_of_significant h.nextSignificant]
  · exact h.continues
  · intro g hg
    obtain ⟨c, hc, rfl⟩ := List.mem_map.mp hg
    exact hpart c hc

/-- No boundary stands between the two characters. -/
theorem not_boundary (h : Continued source lead last gap next rest) :
    ∀ c ∈ last :: gap, c.boundary = false := by
  intro c hc
  by_contra hnot
  have hboundary : c.boundary = true := by simpa using hnot
  have hmem : c ∈ cells source := by
    rw [h.join_next]
    exact List.mem_append_left _ (List.mem_append_right _ hc)
  rw [cells_eq_cellsTo] at hmem
  obtain ⟨hcode, hchar⟩ := Progress.of_boundary hmem hboundary
  rcases List.mem_cons.mp hc with rfl | hgap
  · rcases hchar with hchar | hchar
    · exact h.unfinished hchar
    · exact Glyph.char_ne_newline_of_isSignificant h.significant hchar
  · obtain ⟨first, more, rfl⟩ := List.append_of_mem hgap
    rcases hchar with hchar | hchar
    · have hsignificant : c.isSignificant = true :=
        Glyph.isSignificant_of_isCode hcode (by rw [show c.glyph.char = ';' from hchar]; decide)
      rw [h.between c hgap] at hsignificant
      cases hsignificant
    · have hsplit : cells source = (lead ++ last :: first) ++ c :: (more ++ next :: rest) := by
        rw [h.join]
        simp
      have hmore : ∀ d ∈ more, d.isSignificant = false := fun d hd => h.between d (by simp [hd])
      have hnext := h.continuesIn_next hmore
      rw [continuesIn_of_boundary hsplit hchar hboundary] at hnext
      cases hnext

/-- No statement begins with the second character. -/
theorem not_isFresh (h : Continued source lead last gap next rest) :
    (Progress.initial.run ((lead ++ last :: gap).map Cell.glyph)).isFresh
      ((next :: rest).map Cell.glyph) = false := by
  have hjoin : cells source = lead ++ (last :: gap ++ next :: rest) := h.join
  obtain ⟨-, -, hbehind⟩ := cells_of_append hjoin
  obtain ⟨-, hcells, -⟩ := Progress.cellsTo_eq_append hbehind.symm
  rw [List.append_nil] at hcells
  rw [List.map_append, Progress.run_append, List.map_cons]
  refine Progress.not_isFresh_behind h.significant fun c hc => h.not_boundary c ?_
  rw [hcells]
  exact hc

/-- The line of the first character is not captured: it does not end its statement. -/
theorem keeps_last (h : Continued source lead last gap next rest) :
    Keeps source (newlines (lead.map Cell.char)) := by
  obtain ⟨earlier, init, tail, later, hpieces, hlength, -, hafter, hline⟩ := exists_cellLine h.join
  obtain ⟨feed, hfeed, hchar⟩ := h.feed
  -- the line ends before `next`, or the line end in the gap would stand within it
  obtain ⟨m, hgap, hlater⟩ : ∃ m, gap = tail ++ m ∧ later.flatten = m ++ next :: rest := by
    rcases append_eq_append_cons hafter.symm with hsplit | ⟨m, htail, -⟩
    · exact hsplit
    · refine absurd hchar (hline feed ?_)
      rw [htail, List.dropLast_append_of_ne_nil (List.cons_ne_nil _ _), ← List.cons_append,
        List.dropLast_append_of_ne_nil (List.cons_ne_nil _ _)]
      simp [hfeed]
  have hshaped : (Line.ofPiece (init ++ last :: tail)).Shaped :=
    Line.shaped_ofPiece (cut_cellLines source) (by rw [hpieces]; simp)
  rw [← hlength]
  refine keeps_of_piece hpieces fun fromCode hcaptured => ?_
  have hends := hcaptured.ends
  simp only [Line.endsStatement, Bool.or_eq_true, decide_eq_true_eq] at hends
  rcases hends with (hsemicolon | hterminator) | hfollowing
  · obtain ⟨d, hd, hdchar⟩ := Option.map_eq_some_iff.mp hsemicolon
    obtain rfl := Line.getLast?_statement hshaped (Line.cells_ofPiece _) h.significant
      (fun e he => h.between e (by rw [hgap]; exact List.mem_append_left _ he)) hd
    exact h.unfinished hdchar
  · have hlines : later ≠ [] := by
      rintro rfl
      simp at hlater
    have hcut := cut_cellLines source
    rw [hpieces] at hcut
    exact Line.terminator_ne_nil hcut hlines (List.isEmpty_iff.mp hterminator)
  · rw [flatMap_cells_ofPiece, hlater, h.continuesIn_next fun d hd =>
      h.between d (by rw [hgap]; exact List.mem_append_right _ hd)] at hfollowing
    cases hfollowing

/-- The line of the second character is not captured: it does not begin a statement. -/
theorem keeps_next (h : Continued source lead last gap next rest) :
    Keeps source (newlines ((lead ++ last :: gap).map Cell.char)) := by
  obtain ⟨earlier, init, tail, later, hpieces, hlength, hbefore, -, hline⟩ :=
    exists_cellLine h.join_next
  -- behind the line end in the gap nothing significant stands before `next`
  have hinit : ∀ c ∈ init, c.isSignificant = false := by
    obtain ⟨feed, hfeed, hchar⟩ := h.feed
    obtain ⟨first, more, rfl⟩ := List.append_of_mem hfeed
    rw [← List.cons_append, ← List.append_assoc] at hbefore
    rcases append_eq_append_cons hbefore.symm with ⟨m, -, hsplit⟩ | ⟨m, -, hsplit⟩
    · refine absurd hchar (hline feed ?_)
      rw [List.dropLast_append_of_ne_nil (List.cons_ne_nil _ _), hsplit]
      simp
    · intro c hc
      exact h.between c (by simp [hsplit, hc])
  rw [← hlength]
  refine keeps_of_piece hpieces fun fromCode hcaptured => ?_
  have hbegins := hcaptured.begins
  rw [Line.beginsStatement, Option.any_eq_true] at hbegins
  obtain ⟨d, hd, hfresh⟩ := hbegins
  rw [Bool.and_eq_true, Bool.not_eq_true'] at hfresh
  obtain rfl := Line.head?_statement (Line.cells_ofPiece _) h.nextSignificant hinit hd hfresh.1
  have hnot := (congrArg Cell.fresh (cell_eq_cellAt h.join_next)).trans h.not_isFresh
  rw [hfresh.2] at hnot
  cases hnot

/-- A continued statement is not cut: none begins with the second character. -/
theorem uncut (h : Continued source lead last gap next rest) : Uncut source lead last gap where
  keepsLast := h.keeps_last
  keepsNext := h.keeps_next
  unreturned s hs hbefore := by
    have hjoin := lastStatement?_append hs
    rw [List.append_assoc] at hjoin
    have hbehind : s.statement ++ s.after = next :: rest := by
      rw [hbefore, h.join_next] at hjoin
      exact (List.append_cancel_left hjoin).symm
    have hfresh := (lastStatement?_stands hs).isFresh hjoin
    rw [hbefore, hbehind, h.not_isFresh] at hfresh
    cases hfresh

end Continued

/-! ## Dangling operators -/

theorem of_lacksOperand {before : List Char} {c : Char} (h : lacksOperand before c = true) :
    isAsciiBlank c = false ∧ c ≠ ';' := by
  have hall : ('+' :: '-' :: operandChars).all (fun d => !isAsciiBlank d && d != ';') = true := by
    decide
  have hmem : c ∈ '+' :: '-' :: operandChars := by
    simp only [lacksOperand, Bool.or_eq_true, Bool.and_eq_true, decide_eq_true_eq,
      List.contains_iff_mem] at h
    rcases h with h | ⟨h | h, -⟩ <;> simp [h]
  simpa using List.all_eq_true.mp hall c hmem

/-- A statement goes on behind a text if its next significant character does. -/
theorem exists_next {after : List Cell} (h : continuesIn (after.map Cell.glyph) = true) :
    ∃ between next rest, after = between ++ next :: rest ∧
      (∀ c ∈ between, c.isSignificant = false) ∧ next.isSignificant = true ∧
      isContinuation next.char = true := by
  rw [continuesIn, nextSignificant, List.find?_map, Option.map_map, Option.any_map,
    Option.any_eq_true] at h
  obtain ⟨next, hnext, hcontinues⟩ := h
  obtain ⟨hsignificant, between, rest, rfl, hbetween⟩ := List.find?_eq_some_iff_append.mp hnext
  refine ⟨between, next, rest, rfl, fun c hc => ?_, hsignificant, hcontinues⟩
  have hnot : (!c.isSignificant) = true := hbetween c hc
  simpa using hnot

theorem Dangles.continued {source : List Char} {lead gap between rest : List Cell}
    {operator feed next : Cell}
    (h : Dangles source lead operator gap feed (between ++ next :: rest))
    (hbetween : ∀ c ∈ between, c.isSignificant = false) (hnext : next.isSignificant = true)
    (hcontinues : isContinuation next.char = true) :
    Continued source lead operator (gap ++ feed :: between) next rest where
  join := by
    rw [h.join]
    simp
  significant := Glyph.isSignificant_of_isCode h.code (of_lacksOperand h.lacks).1
  unfinished := (of_lacksOperand h.lacks).2
  between := by
    have hfeed : feed.isSignificant = false := by
      refine Glyph.not_significant_of_isAsciiBlank ?_
      rw [show feed.glyph.char = '\n' from h.feedChar]
      decide
    intro c hc
    rcases List.mem_append.mp hc with hc | hc
    · exact h.between c hc
    · rcases List.mem_cons.mp hc with rfl | hc
      · exact hfeed
      · exact hbetween c hc
  feed := ⟨feed, by simp, h.feedChar⟩
  nextSignificant := hnext
  continues := hcontinues

/-- The line end behind a dangling operator is a boundary unless the next significant character
goes on with the statement. If it does, then the statement is not cut before that character. -/
theorem dangling_operator_continued {source : List Char} {lead gap after : List Cell}
    {operator feed : Cell} (h : Dangles source lead operator gap feed after) :
    (utf8Length ((lead ++ operator :: gap).map Cell.char) ∈ boundaries source ↔
        continuesIn (after.map Cell.glyph) = false) ∧
      (continuesIn (after.map Cell.glyph) = true →
        ∃ between next rest, after = between ++ next :: rest ∧
          (∀ c ∈ between, c.isSignificant = false) ∧ next.isSignificant = true ∧
          Uncut source lead operator (gap ++ feed :: between)) := by
  constructor
  · have hjoin : cells source = (lead ++ operator :: gap) ++ feed :: after := by
      rw [h.join, List.append_assoc, List.cons_append]
    rw [mem_boundaries_of_cells hjoin, boundary_of_feed hjoin h.feedChar h.feedCode h.outer,
      Bool.not_eq_true']
  · intro hcontinues
    obtain ⟨between, next, rest, rfl, hbetween, hnext, hcont⟩ := exists_next hcontinues
    exact ⟨between, next, rest, rfl, hbetween, hnext, (h.continued hbetween hnext hcont).uncut⟩

/-- A sum that goes on with a sign behind a comment and an empty line. -/
theorem sign_behind_comment_continued :
    Dangles "a + // sum\n\n- b".toList ((cells "a + // sum\n\n- b".toList).take 2)
        ⟨⟨'+', .code⟩, 0, 0, false, false⟩ (((cells "a + // sum\n\n- b".toList).drop 3).take 7)
        ⟨⟨'\n', .code⟩, 0, 0, false, false⟩ ((cells "a + // sum\n\n- b".toList).drop 11) ∧
      10 ∉ boundaries "a + // sum\n\n- b".toList ∧
      ∃ between next rest, (cells "a + // sum\n\n- b".toList).drop 11 = between ++ next :: rest ∧
        Uncut "a + // sum\n\n- b".toList ((cells "a + // sum\n\n- b".toList).take 2)
          ⟨⟨'+', .code⟩, 0, 0, false, false⟩
          (((cells "a + // sum\n\n- b".toList).drop 3).take 7
            ++ ⟨⟨'\n', .code⟩, 0, 0, false, false⟩ :: between) := by
  have h : Dangles "a + // sum\n\n- b".toList ((cells "a + // sum\n\n- b".toList).take 2)
      ⟨⟨'+', .code⟩, 0, 0, false, false⟩ (((cells "a + // sum\n\n- b".toList).drop 3).take 7)
      ⟨⟨'\n', .code⟩, 0, 0, false, false⟩ ((cells "a + // sum\n\n- b".toList).drop 11) :=
    ⟨by decide +kernel, rfl, by decide +kernel, by decide +kernel, rfl, rfl, rfl⟩
  have hcontinues : continuesIn
      (((cells "a + // sum\n\n- b".toList).drop 11).map Cell.glyph) = true := by decide +kernel
  obtain ⟨hboundary, huncut⟩ := dangling_operator_continued h
  obtain ⟨between, next, rest, hafter, -, -, huncut⟩ := huncut hcontinues
  refine ⟨h, fun hmem => ?_, between, next, rest, hafter, huncut⟩
  rw [hboundary.mp hmem] at hcontinues
  cases hcontinues

/-- Where a name follows the line end, the statement is cut behind its operator: both lines are
captured, and the second is returned. -/
theorem sum_cut_behind_operator :
    Dangles "a +\nb".toList
        [⟨⟨'a', .code⟩, 0, 0, false, true⟩, ⟨⟨' ', .code⟩, 0, 0, false, false⟩]
        ⟨⟨'+', .code⟩, 0, 0, false, false⟩ [] ⟨⟨'\n', .code⟩, 0, 0, true, false⟩
        [⟨⟨'b', .code⟩, 0, 0, false, true⟩] ∧
      boundaries "a +\nb".toList = [3] ∧
      (instrument "a +\nb".toList).captures = [(1, "a +".toList), (2, "b".toList)] ∧
      returnLast "a +\nb".toList = ⟨"a +\nreturn b;".toList, some 2⟩ :=
  ⟨⟨by decide +kernel, rfl, rfl, nofun, rfl, rfl, rfl⟩, by decide +kernel, by decide +kernel,
    by decide +kernel⟩

end SnippetRunner.Script
