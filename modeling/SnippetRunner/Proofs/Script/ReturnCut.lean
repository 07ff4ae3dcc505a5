import SnippetRunner.Proofs.Script.LastStatement
import SnippetRunner.Proofs.Source.Boundaries

/-
  Returning the last statement loses no code. A script with anything significant in it is cut into
  what stands before its last statement, the expression of that statement, what is spare behind
  the expression, and a rest in which nothing is significant. The returned text puts the word
  `return` before the expression and a semicolon behind it, and of the spare part it keeps the line
  ends. `returnLast_keeps_code` says so, and when a script is left as it is instead.
-/
namespace SnippetRunner.Script

open SnippetRunner.Text SnippetRunner.Source

/-- A script cut around the expression of its last statement. -/
structure LastCut (source : List Char) (before expression spare after : List Cell) : Prop where
  join : cells source = before ++ (expression ++ spare) ++ after
  /-- The statement begins with its first significant character behind a boundary, or behind the
  start of the script. -/
  starts : ∃ earlier lead, before = earlier ++ lead ∧
    (∀ c ∈ earlier.getLast?, c.boundary = true) ∧ ∀ c ∈ lead, c.isSignificant = false
  begins : (expression ++ spare).head?.any Cell.isSignificant = true
  trimmed : (expression.getLast?.map Cell.char).any isBlank = false
  spare : IsSpare spare
  after : ∀ c ∈ after, c.isSignificant = false
  /-- No boundary stands at or behind the start of the expression, and before the last significant
  byte of the script. -/
  last : ∀ offset ∈ boundaries source, utf8Length (before.map Cell.char) ≤ offset →
    ∀ g ∈ (byteGlyphs source).drop (offset + 1), g.isSignificant = false

/-- What is left of a text without the blanks at its end has none there. -/
theorem getLast?_trimEnd (s : List Char) : (trimEnd s).getLast?.any isBlank = false := by
  rw [trimEnd, List.getLast?_reverse]
  have h := List.head?_dropWhile_not isBlank s.reverse
  cases hd : (s.reverse.dropWhile isBlank).head? with
  | none => rfl
  | some c =>
    rw [hd] at h
    simpa using h

namespace LastStatement

variable {source : List Char} {s : LastStatement}

/-- Nothing significant follows a boundary in the last statement or behind it. -/
theorem Stands.not_significant_behind (hs : s.Stands)
    (h : cells source = s.before ++ (s.statement ++ s.after)) {first rest : List Cell} {c : Cell}
    (hsplit : cells source = first ++ c :: rest) (hc : c.boundary = true)
    (hle : utf8Length (s.before.map Cell.char) ≤ utf8Length (first.map Cell.char)) :
    ∀ d ∈ rest, d.isSignificant = false := by
  rcases append_eq_append_cons (h.symm.trans hsplit) with ⟨lead, -, hbehind⟩ | ⟨more, hbefore, -⟩
  · rcases append_eq_append_cons hbehind with ⟨skipped, -, hafter⟩ | ⟨more, hstatement, hrest⟩
    · intro d hd
      refine hs.after d ?_
      rw [hafter]
      exact List.mem_append_right _ (List.mem_cons_of_mem _ hd)
    · -- within the statement only its last cell may be a boundary
      have hmore : more = [] := by
        by_contra hne
        have hmem : c ∈ s.statement.dropLast := by
          obtain ⟨init, e, rfl⟩ := (List.eq_nil_or_concat' more).resolve_left hne
          rw [hstatement, ← List.cons_append, ← List.append_assoc, List.dropLast_concat]
          simp
        rw [hs.single c hmem] at hc
        cases hc
      intro d hd
      rw [hrest, hmore, List.nil_append] at hd
      exact hs.after d hd
  · have := c.char.utf8Size_pos
    rw [hbefore, List.map_append, List.map_cons, utf8Length_append, utf8Length_cons] at hle
    omega

/-- The cut around the last statement. -/
theorem exists_lastCut (h : lastStatement? (cells source) = some s) :
    ∃ expression spare, LastCut source s.before expression spare s.after ∧
      s.statement = expression ++ spare ∧ expression.map Cell.char = s.expression := by
  have hs := lastStatement?_stands h
  have hjoin := lastStatement?_append h
  have hcells : cells source = s.before ++ (s.statement ++ s.after) := by
    rw [hjoin, List.append_assoc]
  obtain ⟨after, hafter, hnot⟩ := upToLast_append Cell.isSignificant s.statement
  obtain ⟨body, dropped, hbody, hexpression, hspare⟩ :=
    exists_body (upToLast Cell.isSignificant s.statement)
  rw [← expression] at hexpression
  have hstatement : s.statement = body ++ (dropped ++ after) := by
    rw [← List.append_assoc, ← hbody]
    exact hafter
  refine ⟨body, dropped ++ after, ?_, hstatement, hexpression⟩
  exact {
    join := by rw [← hstatement, hjoin]
    starts := hs.begins
    begins := by
      obtain ⟨c, more, hhead, hc⟩ := hs.head
      rw [← hstatement, hhead, List.head?_cons, Option.any_some, hc]
    trimmed := by
      rw [← List.getLast?_map, hexpression]
      exact getLast?_trimEnd _
    spare := hspare.append_of_not hnot
    after := hs.after
    last := by
      intro offset hmem hle g hg
      obtain ⟨first, c, rest, hsplit, hc, rfl⟩ := mem_boundaries_iff.mp hmem
      rw [drop_byteGlyphs hsplit hc] at hg
      obtain ⟨d, hd, hgd⟩ := List.mem_flatMap.mp hg
      obtain ⟨cell, hcell, rfl⟩ := List.mem_map.mp hd
      rw [Glyph.isSignificant_of_mem_bytes hgd]
      exact hs.not_significant_behind hcells hsplit hc hle cell hcell }

section

variable {expression spare : List Cell}

theorem isReturnable_eq (hstatement : s.statement = expression ++ spare)
    (hexpression : expression.map Cell.char = s.expression) :
    s.isReturnable =
      (!isStatementForm ((expression ++ spare).map Cell.char) && !expression.isEmpty) := by
  rw [isReturnable, hstatement, ← hexpression, List.isEmpty_map]

/-- The returned text, by the cut around the last statement. -/
theorem returned_eq (hstatement : s.statement = expression ++ spare)
    (hexpression : expression.map Cell.char = s.expression) :
    s.returned = s.before.map Cell.char ++ "return ".toList ++ expression.map Cell.char
      ++ ";".toList ++ (spare.map Cell.char).filter (· = '\n') ++ s.after.map Cell.char := by
  have htail : s.tail = (spare.map Cell.char).filter (· = '\n') := by
    rw [tail, hstatement, ← hexpression, List.map_append, List.drop_left]
  rw [returned, htail, ← hexpression]

end

end LastStatement

theorem lastStatementIn_eq_none {pieces : List (List Cell)} {after : List Cell}
    (h : lastStatementIn pieces after = none) : ∀ p ∈ pieces, ∀ c ∈ p, c.isSignificant = false := by
  induction pieces generalizing after with
  | nil => simp
  | cons piece pieces ih =>
    rw [lastStatementIn] at h
    split at h
    · cases h
    · next hany =>
      intro p hp c hc
      rcases List.mem_cons.mp hp with rfl | hp
      · simpa using List.any_eq_false.mp (by simpa using hany) c hc
      · exact ih h p hp c hc

/-- Only a script without anything significant has no last statement. -/
theorem lastStatement?_eq_none_iff {cs : List Cell} :
    lastStatement? cs = none ↔ ∀ c ∈ cs, c.isSignificant = false := by
  constructor
  · intro h c hc
    rw [← flatten_splitAfter Cell.boundary cs] at hc
    obtain ⟨piece, hpiece, hc⟩ := List.mem_flatten.mp hc
    exact lastStatementIn_eq_none h piece (List.mem_reverse.mpr hpiece) c hc
  · intro h
    cases hlast : lastStatement? cs with
    | none => rfl
    | some s =>
      obtain ⟨c, more, hhead, hc⟩ := (lastStatement?_stands hlast).head
      have hmem : c ∈ cs := by
        rw [lastStatement?_append hlast, hhead]
        simp
      rw [h c hmem] at hc
      cases hc

/-- The bytes of a script are significant exactly where its characters are. -/
theorem byteGlyphs_not_significant_iff (source : List Char) :
    (∀ g ∈ byteGlyphs source, g.isSignificant = false) ↔
      ∀ c ∈ cells source, c.isSignificant = false := by
  rw [byteGlyphs_eq, ← map_glyph_cells]
  constructor
  · intro h c hc
    obtain ⟨b, hb⟩ := List.exists_mem_of_ne_nil c.glyph.bytes (by
      rw [← Cell.map_glyph_bytes]
      simpa using c.bytes_ne_nil)
    have hglyph := h b (List.mem_flatMap.mpr ⟨c.glyph, List.mem_map_of_mem hc, hb⟩)
    rwa [Glyph.isSignificant_of_mem_bytes hb] at hglyph
  · intro h b hb
    obtain ⟨g, hg, hb⟩ := List.mem_flatMap.mp hb
    obtain ⟨c, hc, rfl⟩ := List.mem_map.mp hg
    rw [Glyph.isSignificant_of_mem_bytes hb]
    exact h c hc

/-- A script in which nothing is significant is left as it is. Any other is cut around the
expression of its last statement. If there is an expression and the statement is of no form that is
left alone, then the expression is returned with its line, and all that is lost of the text is
spare; otherwise the script is left as it is. -/
theorem returnLast_keeps_code (source : List Char) :
    ((∀ g ∈ byteGlyphs source, g.isSignificant = false) → returnLast source = ⟨source, none⟩) ∧
      (returnLast source = ⟨source, none⟩ ∧
          ((∀ g ∈ byteGlyphs source, g.isSignificant = false) ∨
            ∃ before expression spare after, LastCut source before expression spare after ∧
              (expression = [] ∨ isStatementForm ((expression ++ spare).map Cell.char) = true)) ∨
        ∃ before expression spare after, LastCut source before expression spare after ∧
          expression ≠ [] ∧ isStatementForm ((expression ++ spare).map Cell.char) = false ∧
          returnLast source =
            ⟨before.map Cell.char ++ "return ".toList ++ expression.map Cell.char ++ ";".toList
                ++ (spare.map Cell.char).filter (· = '\n') ++ after.map Cell.char,
              some (1 + newlines (before.map Cell.char))⟩) := by
  rw [byteGlyphs_not_significant_iff, ← lastStatement?_eq_none_iff]
  cases h : lastStatement? (cells source) with
  | none =>
    have hkept : returnLast source = ⟨source, none⟩ := by rw [returnLast, h]
    exact ⟨fun _ => hkept, Or.inl ⟨hkept, Or.inl rfl⟩⟩
  | some s =>
    refine ⟨fun hnone => absurd hnone (Option.some_ne_none s), ?_⟩
    obtain ⟨expression, spare, hcut, hstatement, hexpression⟩ := LastStatement.exists_lastCut h
    rw [returnLast_of_lastStatement h, LastStatement.isReturnable_eq hstatement hexpression,
      LastStatement.returned_eq hstatement hexpression, LastStatement.line, Nat.add_comm]
    cases hform : isStatementForm ((expression ++ spare).map Cell.char) with
    | true => exact Or.inl ⟨rfl, Or.inr ⟨_, expression, spare, _, hcut, Or.inr hform⟩⟩
    | false =>
      cases expression with
      | nil => exact Or.inl ⟨rfl, Or.inr ⟨_, [], spare, _, hcut, Or.inl rfl⟩⟩
      | cons c more =>
        exact Or.inr ⟨_, c :: more, spare, _, hcut, List.cons_ne_nil _ _, hform, rfl⟩

end SnippetRunner.Script
