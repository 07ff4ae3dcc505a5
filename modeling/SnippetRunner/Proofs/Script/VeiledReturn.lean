import SnippetRunner.Proofs.Script.LastStatement
import SnippetRunner.Proofs.Script.VeiledLine

/-
  The last statement of a script behind the veil over its comments. Boundaries and significant
  characters are seen, so the last statement is cut out at the same places; its beginning is seen
  up to the slash of a comment, which is part of no word and no blank. So the veil alone tells
  whether the statement is returned, and from which line.
-/
namespace SnippetRunner.Script

open SnippetRunner.Text SnippetRunner.Source

/-- The number of the line from which the last statement of the cells is returned. -/
def returnedLine (cs : List Cell) : Option Nat :=
  (lastStatement? cs).bind fun s => if s.isReturnable then some s.line else none

theorem returnLast_line (source : List Char) :
    (returnLast source).line = returnedLine (cells source) := by
  unfold returnLast returnedLine
  cases lastStatement? (cells source) with
  | none => rfl
  | some s =>
    rw [Option.bind_some]
    dsimp only
    split <;> rfl

/-! ## Significant cells -/

theorem Cell.seen_of_isSignificant {c : Cell} (h : c.isSignificant = true) : c.seen = [c] :=
  Cell.seen_of_not (not_hides_of_isSignificant h)

theorem Cell.not_isSignificant_seen {c : Cell} (h : c.isSignificant = false) :
    ∀ d ∈ c.seen, d.isSignificant = false := by
  intro d hd
  cases hides : inComments.hides c.glyph with
  | true => exact not_significant_of_isComment (mark_of_hides hides _ (Cell.of_mem_seen hd).1).1
  | false =>
    rw [Cell.seen_of_not hides, List.mem_singleton] at hd
    rwa [hd]

theorem map_char_seen (cs : List Cell) : (cs.flatMap Cell.seen).map Cell.char =
    (inComments.veil (cs.map Cell.glyph)).map Glyph.char := by
  rw [← map_char_glyph, map_glyph_flatMap_seen]

theorem any_isSignificant_seen (cs : List Cell) :
    (cs.flatMap Cell.seen).any Cell.isSignificant = cs.any Cell.isSignificant := by
  rw [List.any_flatMap]
  congr 1
  funext c
  cases hc : c.isSignificant with
  | true => simp [Cell.seen_of_isSignificant hc, hc]
  | false => exact List.any_eq_false.mpr fun d hd => by simp [Cell.not_isSignificant_seen hc d hd]

theorem takeWhile_seen (cs : List Cell) :
    (cs.flatMap Cell.seen).takeWhile (!·.isSignificant) =
      (cs.takeWhile (!·.isSignificant)).flatMap Cell.seen := by
  induction cs with
  | nil => rfl
  | cons c cs ih =>
    rw [List.flatMap_cons]
    cases hc : c.isSignificant with
    | true =>
      rw [Cell.seen_of_isSignificant hc, List.singleton_append,
        List.takeWhile_cons_of_neg (by simp [hc]), List.takeWhile_cons_of_neg (by simp [hc])]
      rfl
    | false =>
      rw [List.takeWhile_append_of_pos fun d hd => by simp [Cell.not_isSignificant_seen hc d hd],
        ih, List.takeWhile_cons_of_pos (by simp [hc]), List.flatMap_cons]

theorem dropWhile_seen (cs : List Cell) :
    (cs.flatMap Cell.seen).dropWhile (!·.isSignificant) =
      (cs.dropWhile (!·.isSignificant)).flatMap Cell.seen := by
  have h := List.takeWhile_append_dropWhile (p := (!·.isSignificant)) (l := cs.flatMap Cell.seen)
  conv_rhs at h => rw [← List.takeWhile_append_dropWhile (p := (!·.isSignificant)) (l := cs)]
  rw [takeWhile_seen, List.flatMap_append] at h
  exact List.append_cancel_left h

theorem upToLast_seen (cs : List Cell) :
    upToLast Cell.isSignificant (cs.flatMap Cell.seen) =
      (upToLast Cell.isSignificant cs).flatMap Cell.seen := by
  obtain ⟨after, hcs, hafter⟩ := upToLast_append Cell.isSignificant cs
  conv_lhs => rw [hcs, List.flatMap_append]
  refine upToLast_append_of_not (fun d hd => ?_) fun d hd => ?_
  · cases (upToLast Cell.isSignificant cs).eq_nil_or_concat' with
    | inl hnil =>
      rw [hnil] at hd
      cases hd
    | inr hconcat =>
      obtain ⟨init, c, e⟩ := hconcat
      have hc := getLast?_upToLast (p := Cell.isSignificant) (s := cs) (a := c) (by simp [e])
      rw [e, List.flatMap_append, List.flatMap_singleton, Cell.seen_of_isSignificant hc,
        List.getLast?_concat] at hd
      rwa [← Option.some.inj hd]
  · obtain ⟨c, hc, hd⟩ := List.mem_flatMap.mp hd
    exact Cell.not_isSignificant_seen (hafter c hc) d hd

/-! ## The last statement -/

namespace LastStatement

variable {s : LastStatement}

/-- What is seen of the script around its last statement. -/
def seen (s : LastStatement) : LastStatement :=
  ⟨s.before.flatMap Cell.seen, s.statement.flatMap Cell.seen, s.after.flatMap Cell.seen⟩

theorem line_seen (s : LastStatement) : s.seen.line = s.line := by
  have hnewlines (cs : List Cell) :
      newlines (cs.map Cell.char) = (cs.filter (·.char = '\n')).length := by
    rw [newlines, List.count, List.countP_map, List.countP_eq_length_filter]
    rfl
  rw [line, line, seen, hnewlines, hnewlines, filter_newline_seen]

end LastStatement

theorem lastStatementIn_seen (pieces : List (List Cell)) (after : List Cell) :
    lastStatementIn (pieces.map (List.flatMap Cell.seen)) (after.flatMap Cell.seen) =
      (lastStatementIn pieces after).map LastStatement.seen := by
  induction pieces generalizing after with
  | nil => rfl
  | cons piece earlier ih =>
    rw [List.map_cons, lastStatementIn, lastStatementIn, any_isSignificant_seen]
    split
    · rw [takeWhile_seen, dropWhile_seen, ← List.map_reverse, flatten_map_flatMap,
        ← List.flatMap_append]
      rfl
    · rw [← List.flatMap_append, ih]

theorem lastStatement?_seen {cs : List Cell}
    (h : ∀ c ∈ cs, inComments.hides c.glyph = true → c.boundary = false) :
    lastStatement? (cs.flatMap Cell.seen) = (lastStatement? cs).map LastStatement.seen := by
  have hsplit : splitAfter Cell.boundary (cs.flatMap Cell.seen) =
      (splitAfter Cell.boundary cs).map (List.flatMap Cell.seen) := by
    refine splitAfter_flatMap Cell.seen_ne_nil (fun c hc d hd => ?_) fun c hc hboundary => ?_
    · rw [(Cell.of_mem_seen hd).2.2.2.1, hc]
    · refine ⟨c, Cell.seen_of_not ?_, hboundary⟩
      by_contra hides
      rw [h c hc (by simpa using hides)] at hboundary
      cases hboundary
  rw [lastStatement?, hsplit, ← List.map_reverse]
  exact lastStatementIn_seen _ []

/-! ## Whether it is returned -/

theorem trimEnd_isEmpty (s : List Char) : (trimEnd s).isEmpty = s.all isBlank := by
  rw [trimEnd, List.isEmpty_reverse, Bool.eq_iff_iff, List.isEmpty_iff, List.dropWhile_eq_nil_iff,
    List.all_eq_true]
  simp

/-- An expression is empty behind the veil exactly if it is empty. -/
theorem expression_isEmpty_veil {gs : List Glyph} (hchain : gs.IsChain Borders)
    (hhead : ∀ g ∈ gs.head?, g.isComment = false)
    (hlast : ∀ g ∈ gs.getLast?, g.isSignificant = true) :
    (trimEnd (dropSemicolon ((inComments.veil gs).map Glyph.char))).isEmpty =
      (trimEnd (dropSemicolon (gs.map Glyph.char))).isEmpty := by
  have hall {hs : List Glyph} (hchain : hs.IsChain Borders)
      (hhead : ∀ g ∈ hs.head?, g.isComment = false) :
      ((inComments.veil hs).map Glyph.char).all isBlank = (hs.map Glyph.char).all isBlank :=
    ((alike_comment hchain hhead).all_eq (p := isBlank) fun c hc => by
      rw [List.mem_singleton.mp hc]
      decide).symm
  rw [trimEnd_isEmpty, trimEnd_isEmpty]
  cases gs.eq_nil_or_concat' with
  | inl hnil => rw [hnil]; rfl
  | inr hconcat =>
    obtain ⟨init, g, rfl⟩ := hconcat
    have hg : inComments.hides g = false :=
      not_hides_of_isSignificant (hlast g (by rw [List.getLast?_concat]; rfl))
    by_cases hsemicolon : g.char = ';'
    · -- without the semicolon, what stands before it
      rw [Cover.veil_append, Cover.veil_singleton, Cover.seen_of_not hg, dropSemicolon,
        dropSemicolon, if_pos (by simp [hsemicolon]), if_pos (by simp [hsemicolon]),
        List.map_append, List.map_append, List.map_singleton, List.dropLast_concat,
        List.dropLast_concat]
      refine hall hchain.left_of_append fun h hh => hhead h ?_
      rw [List.head?_append, Option.mem_def.mp hh]
      rfl
    · have hkept : dropSemicolon ((init ++ [g]).map Glyph.char) = (init ++ [g]).map Glyph.char := by
        rw [dropSemicolon, if_neg]
        simp [hsemicolon]
      have hseen : dropSemicolon ((inComments.veil (init ++ [g])).map Glyph.char) =
          (inComments.veil (init ++ [g])).map Glyph.char := by
        rw [dropSemicolon, if_neg]
        rw [getLast?_char_veil hlast]
        simp [hsemicolon]
      rw [hkept, hseen, hall hchain hhead]

namespace LastStatement

variable {s : LastStatement}

theorem isReturnable_seen (hstands : s.Stands)
    (hchain : (s.statement.map Cell.glyph).IsChain Borders) :
    s.seen.isReturnable = s.isReturnable := by
  obtain ⟨first, more, hfirst, hsig⟩ := hstands.head
  obtain ⟨after, hafter, hnot⟩ := upToLast_append Cell.isSignificant s.statement
  obtain ⟨shown, hshown⟩ : ∃ shown, shown = upToLast Cell.isSignificant s.statement := ⟨_, rfl⟩
  rw [← hshown] at hafter
  have hcomment : first.glyph.isComment = false := by
    by_contra hcomment
    rw [Cell.isSignificant, not_significant_of_isComment (by simpa using hcomment)] at hsig
    cases hsig
  have hshownHead : shown.head? = some first := by
    cases shown with
    | nil =>
      have hmem : first ∈ after := by
        rw [← List.nil_append after, ← hafter, hfirst]
        exact List.mem_cons_self ..
      rw [hnot first hmem] at hsig
      cases hsig
    | cons c shown =>
      rw [hfirst, List.cons_append, List.cons.injEq] at hafter
      rw [hafter.1]
      rfl
  have hhead {cs : List Cell} (hcs : cs.head? = some first) :
      ∀ g ∈ (cs.map Cell.glyph).head?, g.isComment = false := by
    intro g hg
    rw [List.head?_map, hcs] at hg
    rwa [← Option.some.inj hg]
  have hlast : ∀ g ∈ (shown.map Cell.glyph).getLast?, g.isSignificant = true := by
    intro g hg
    rw [List.getLast?_map, Option.mem_map] at hg
    obtain ⟨c, hc, rfl⟩ := hg
    exact getLast?_upToLast (p := Cell.isSignificant) (hshown ▸ hc)
  have hform : isStatementForm (s.seen.statement.map Cell.char) =
      isStatementForm (s.statement.map Cell.char) := by
    rw [seen, map_char_seen, ← map_char_glyph]
    exact (isStatementForm_alike (alike_comment hchain (hhead (by rw [hfirst]; rfl)))).symm
  have hexpression : s.seen.expression.isEmpty = s.expression.isEmpty := by
    rw [expression, expression, seen, upToLast_seen, ← hshown, map_char_seen, ← map_char_glyph]
    refine expression_isEmpty_veil ?_ (hhead hshownHead) hlast
    rw [hafter, List.map_append] at hchain
    exact hchain.left_of_append
  rw [isReturnable, isReturnable, hform, hexpression]

end LastStatement

/-- The veil over the comments of a script tells from which line its last statement is
returned. -/
theorem returnLast_line_eq_veiled (source : List Char) :
    (returnLast source).line = returnedLine (veiledCells source) := by
  rw [returnLast_line, returnedLine, returnedLine, veiledCells,
    lastStatement?_seen fun _ hc => boundary_of_hides hc]
  cases h : lastStatement? (cells source) with
  | none => rfl
  | some s =>
    have hchain := isChain_glyphs source
    rw [← map_glyph_cells, lastStatement?_append h, List.map_append, List.map_append] at hchain
    rw [Option.map_some, Option.bind_some, Option.bind_some, s.line_seen,
      LastStatement.isReturnable_seen (lastStatement?_stands h)
        hchain.left_of_append.right_of_append]

/-- Scripts with the same veil have their last statements returned from the same line. -/
theorem returnLast_line_congr {s t : List Char}
    (h : inComments.veil (glyphs s) = inComments.veil (glyphs t)) :
    (returnLast s).line = (returnLast t).line := by
  rw [returnLast_line_eq_veiled, returnLast_line_eq_veiled, veiledCells_eq, veiledCells_eq, h]

end SnippetRunner.Script
