import SnippetRunner.Proofs.Script.Continuation
import SnippetRunner.Proofs.Script.ReturnCut
import SnippetRunner.Proofs.Source.LongCall

/-
  Statements behind a `return`. The statement that is returned runs up to a boundary, and a
  semicolon behind a call over several lines is none; so what stands behind such a semicolon is
  returned with the call, and never runs. `returned_semicolon_ends_long_call` says that no other
  semicolon outside all brackets comes into a returned expression, and what follows it there.
-/
namespace SnippetRunner.Script

open SnippetRunner.Text SnippetRunner.Source

/-- A part of a text from its first significant character on: on the same line as what stands
before it, or behind code line ends as a character that goes on with a statement. -/
def GoesOn (part : List Cell) : Prop :=
  ∃ gap next later, part = gap ++ next :: later ∧ (∀ c ∈ gap, c.isSignificant = false) ∧
    next.isSignificant = true ∧
    ((∃ c ∈ gap, c.isCode = true ∧ c.char = '\n') → isContinuation next.char = true)

/-- Behind a semicolon nothing changes the depth up to the next significant character. -/
theorem depth_behind_semicolon {source : List Char} {before gap rest : List Cell} {c d : Cell}
    (h : cells source = before ++ c :: (gap ++ d :: rest)) (hc : c.char = ';')
    (hgap : ∀ e ∈ gap, e.isSignificant = false) : d.depth = c.depth := by
  have hd : cells source = (before ++ c :: gap) ++ d :: rest := by
    rw [h, List.append_assoc, List.cons_append]
  have hdepth := congrArg Cell.depth (cell_eq_cellAt hd)
  rw [List.map_append, List.map_cons, Progress.run_append, Progress.run_cons] at hdepth
  have hgap : ∀ g ∈ gap.map Cell.glyph, g.isSignificant = false := by
    intro g hg
    obtain ⟨e, he, rfl⟩ := List.mem_map.mp hg
    exact hgap e he
  calc d.depth = _ := hdepth
    _ = ((Progress.initial.run (before.map Cell.glyph)).step c.glyph).nesting.opened.length :=
      congrArg List.length (Progress.run_opened_of_not _ hgap)
    _ = (Progress.initial.run (before.map Cell.glyph)).nesting.opened.length :=
      congrArg List.length (opened_step_of_semicolon hc)
    _ = c.depth := (congrArg Cell.depth (cell_eq_cellAt h)).symm

namespace LastStatement

variable {source : List Char} {s : LastStatement} {expression spare first rest : List Cell}
  {c : Cell}

/-- A semicolon that is left in the expression is not the last significant character of the
statement, for that one would have been cut off. -/
theorem exists_significant_behind (hstatement : s.statement = expression ++ spare)
    (hexpression : expression.map Cell.char = s.expression)
    (hsplit : expression = first ++ c :: rest) (hcode : c.isCode = true) (hchar : c.char = ';') :
    (rest ++ spare).any Cell.isSignificant = true := by
  by_contra hnone
  have hnone : ∀ d ∈ rest ++ spare, d.isSignificant = false := fun d hd => by
    simpa using List.any_eq_false.mp (Bool.eq_false_iff.mpr hnone) d hd
  have hc : c.isSignificant = true :=
    Glyph.isSignificant_of_isCode hcode (by rw [show c.glyph.char = ';' from hchar]; decide)
  have hshown : upToLast Cell.isSignificant s.statement = first ++ [c] := by
    have hjoin : s.statement = (first ++ [c]) ++ (rest ++ spare) := by
      rw [hstatement, hsplit]
      simp
    rw [hjoin]
    refine upToLast_append_of_not (fun d hd => ?_) hnone
    rw [List.getLast?_concat, Option.mem_some_iff] at hd
    rw [← hd]
    exact hc
  have hdropped : dropSemicolon ((first ++ [c]).map Cell.char) = first.map Cell.char := by
    rw [List.map_append, List.map_singleton, hchar, dropSemicolon, List.getLast?_concat,
      if_pos rfl, List.dropLast_concat]
  obtain ⟨blanks, hblanks, -⟩ := trimEnd_append (first.map Cell.char)
  have hlength := congrArg List.length hexpression
  have hfirst := congrArg List.length hblanks
  rw [LastStatement.expression, hshown, hdropped, List.length_map, hsplit] at hlength
  simp only [List.length_append, List.length_cons, List.length_map] at hlength hfirst
  omega

/-- What goes on behind a semicolon within the last statement. -/
theorem goesOn_behind (hs : s.Stands)
    (h : cells source = s.before ++ (s.statement ++ s.after))
    (hstatement : s.statement = first ++ c :: rest) (hchar : c.char = ';') (hdepth : c.depth = 0)
    (hbehind : rest.any Cell.isSignificant = true) : GoesOn rest := by
  obtain ⟨next, later, hnext, hsignificant⟩ := exists_dropWhile hbehind
  have hrest : rest = rest.takeWhile (!·.isSignificant) ++ next :: later := by
    rw [← hnext, List.takeWhile_append_dropWhile]
  have hgap : ∀ d ∈ rest.takeWhile (!·.isSignificant), d.isSignificant = false := by
    intro d hd
    simpa using List.mem_takeWhile_imp hd
  generalize rest.takeWhile (!·.isSignificant) = gap at hrest hgap
  refine ⟨gap, next, later, hrest, hgap, hsignificant, ?_⟩
  rintro ⟨feed, hfeed, hcode, hfeedChar⟩
  obtain ⟨a, b, rfl⟩ := List.append_of_mem hfeed
  have ha : ∀ d ∈ a, d.isSignificant = false := fun d hd => hgap d (by simp [hd])
  have hb : ∀ d ∈ b, d.isSignificant = false := fun d hd => hgap d (by simp [hd])
  have hjoin : cells source =
      (s.before ++ first) ++ c :: (a ++ feed :: (b ++ next :: (later ++ s.after))) := by
    rw [h, hstatement, hrest]
    simp
  have hfeedJoin : cells source =
      ((s.before ++ first) ++ c :: a) ++ feed :: (b ++ next :: (later ++ s.after)) := by
    rw [hjoin]
    simp
  -- the line end stands within the statement, so it is no boundary
  have hinside : feed.boundary = false := by
    refine hs.single feed ?_
    have hparts : s.statement = (first ++ c :: (a ++ feed :: b)) ++ next :: later := by
      rw [hstatement, hrest]
      simp
    rw [hparts, List.dropLast_append_of_ne_nil (List.cons_ne_nil _ _)]
    simp
  rw [boundary_of_feed hfeedJoin hfeedChar hcode
    ((depth_behind_semicolon hjoin hchar ha).trans hdepth), List.map_append,
    continuesIn_append_of_not, List.map_cons, continuesIn_cons_of_significant hsignificant]
    at hinside
  · exact (Bool.not_eq_false' ..).mp hinside
  · intro g hg
    obtain ⟨d, hd, rfl⟩ := List.mem_map.mp hg
    exact hb d hd

end LastStatement

/-- A script is left as it is, or the expression of its last statement is returned. In the
expression a code semicolon outside all brackets stands only behind a call that was opened on an
earlier line, and what follows it in the statement stands on the same line, or begins with a
character that goes on with a statement. -/
theorem returned_semicolon_ends_long_call (source : List Char) :
    returnLast source = ⟨source, none⟩ ∨
      ∃ before expression spare after, LastCut source before expression spare after ∧
        expression ≠ [] ∧
        returnLast source =
          ⟨before.map Cell.char ++ "return ".toList ++ expression.map Cell.char ++ ";".toList
              ++ (spare.map Cell.char).filter (· = '\n') ++ after.map Cell.char,
            some (1 + newlines (before.map Cell.char))⟩ ∧
        ∀ first c rest, expression = first ++ c :: rest → c.isCode = true → c.char = ';' →
          c.depth = 0 → EndsLongCall (before ++ first) ∧ GoesOn (rest ++ spare) := by
  cases h : lastStatement? (cells source) with
  | none => exact Or.inl (by rw [returnLast, h])
  | some s =>
    rw [returnLast_of_lastStatement h]
    split
    · next hreturnable =>
      obtain ⟨expression, spare, hcut, hstatement, hexpression⟩ := LastStatement.exists_lastCut h
      have hs := lastStatement?_stands h
      have hjoin : cells source = s.before ++ (s.statement ++ s.after) := by
        rw [lastStatement?_append h, List.append_assoc]
      refine Or.inr ⟨s.before, expression, spare, s.after, hcut, ?_, ?_, ?_⟩
      · rintro rfl
        rw [LastStatement.isReturnable, ← hexpression] at hreturnable
        simp at hreturnable
      · rw [LastStatement.returned_eq hstatement hexpression, LastStatement.line, Nat.add_comm]
      · intro first c rest hsplit hcode hchar hdepth
        have hbehind :=
          LastStatement.exists_significant_behind hstatement hexpression hsplit hcode hchar
        have hparts : s.statement = first ++ c :: (rest ++ spare) := by
          rw [hstatement, hsplit]
          simp
        have hinside : c.boundary = false := by
          refine hs.single c ?_
          have hne : rest ++ spare ≠ [] := by
            intro hnil
            rw [hnil] at hbehind
            cases hbehind
          rw [hparts, List.dropLast_append_of_ne_nil (List.cons_ne_nil _ _),
            List.dropLast_cons_of_ne_nil hne]
          simp
        have hplace : cells source = (s.before ++ first) ++ c :: (rest ++ spare ++ s.after) := by
          rw [hjoin, hparts]
          simp
        exact ⟨(boundary_of_semicolon hplace hcode hchar hdepth).mp hinside,
          LastStatement.goesOn_behind hs hjoin hparts hchar hdepth hbehind⟩
    · exact Or.inl rfl

/-- What follows a call over several lines is returned with it, on the same line and on the next:
in both scripts a code semicolon outside all brackets stands in the returned expression. -/
theorem statement_behind_call_returned_with_it :
    returnLast "foo(\n1\n); bar()".toList = ⟨"return foo(\n1\n); bar();".toList, some 1⟩ ∧
      returnLast "foo(\n1\n);\n[1, 2]".toList = ⟨"return foo(\n1\n);\n[1, 2];".toList, some 1⟩ ∧
      ((cells "foo(\n1\n); bar()".toList)[8]?.map fun c => (c.char, c.isCode, c.depth)) =
        some (';', true, 0) ∧
      ((cells "foo(\n1\n);\n[1, 2]".toList)[8]?.map fun c => (c.char, c.isCode, c.depth)) =
        some (';', true, 0) := by
  decide +kernel

end SnippetRunner.Script
