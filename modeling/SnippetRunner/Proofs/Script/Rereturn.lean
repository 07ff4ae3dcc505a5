import SnippetRunner.Proofs.Script.Returned

/-
  Returning twice. The walks over a script and over its returned text are alike up to the word
  that the return statement begins with, and parallel behind it; so what begins a statement in
  the returned text stands before the word, at the word, or on a line at a detached semicolon of
  the script.
-/
namespace SnippetRunner.Script

open SnippetRunner.Text SnippetRunner.Source

/-! ## The return word -/

/-- A significant character that is no bracket and no semicolon. -/
def isWordGlyph (g : Glyph) : Bool :=
  g.isSignificant && !isOpening g.char && !isClosing g.char && g.char ≠ ';'

/-- What the walk knows behind a word. -/
def behindWord (p : Progress) : Progress := ⟨⟨p.nesting.opened, p.nesting.line, none⟩, false, false⟩

theorem step_word {p : Progress} {g : Glyph} (h : isWordGlyph g = true) :
    p.step g = behindWord p := by
  simp only [isWordGlyph, Bool.and_eq_true, Bool.not_eq_true', decide_eq_true_eq] at h
  obtain ⟨⟨⟨hg, hopen⟩, hclose⟩, hchar⟩ := h
  have hparen : g.char ≠ ')' := by
    intro e
    rw [e] at hclose
    cases hclose
  have hopened : p.nesting.openedAfter g = p.nesting.opened := by
    simp [Nesting.openedAfter, hopen, hclose]
  have hcall : p.nesting.callClosedBy g = none := by
    unfold Nesting.callClosedBy
    split
    · rw [if_neg (by simp [hparen])]
    · rfl
  simp only [Progress.step, Nesting.step, behindWord, hg, hopened, hcall, if_true,
    if_neg (Glyph.char_ne_newline_of_isSignificant hg), Progress.endsAt, hchar, decide_false,
    Bool.false_and, Bool.and_false, Bool.not_true]

theorem run_word {p : Progress} {gs : List Glyph} (hne : gs ≠ [])
    (h : ∀ g ∈ gs, isWordGlyph g = true) : p.run gs = behindWord p := by
  induction gs generalizing p with
  | nil => exact absurd rfl hne
  | cons g gs ih =>
    rw [Progress.run_cons, step_word (h g (List.mem_cons_self ..))]
    cases gs with
    | nil => rfl
    | cons g' gs =>
      rw [ih (List.cons_ne_nil _ _) fun a ha => h a (List.mem_cons_of_mem _ ha)]
      rfl

theorem returnGlyphs_eq :
    returnGlyphs = "return".toList.map (⟨·, .code⟩) ++ [⟨' ', .code⟩] := by decide

theorem run_returnGlyphs (p : Progress) : p.run returnGlyphs = behindWord p := by
  have hword : ∀ g ∈ "return".toList.map (⟨·, .code⟩ : Char → Glyph), isWordGlyph g = true := by
    decide
  rw [returnGlyphs_eq, Progress.run_concat, run_word (by decide) hword]
  exact Progress.step_of_not (by decide) (by decide)

/-- Behind its first letter the word begins no statement. -/
theorem not_isFresh_in_word {p : Progress} {first more rest : List Glyph} {g : Glyph}
    (h : returnGlyphs = first ++ g :: more) (hne : first ≠ []) :
    (p.run first).isFresh rest = false := by
  have hword : ∀ a ∈ first, isWordGlyph a = true := by
    intro a ha
    have hdrop := congrArg List.dropLast h
    rw [returnGlyphs_eq, List.dropLast_concat,
      List.dropLast_append_of_ne_nil (List.cons_ne_nil _ _)] at hdrop
    exact (by decide : ∀ g ∈ "return".toList.map (⟨·, .code⟩ : Char → Glyph),
      isWordGlyph g = true) a (by rw [hdrop]; exact List.mem_append_left _ ha)
  rw [run_word hne hword]
  rfl

theorem opensWithKeyword_return {rest : List Char} (h : identifierEnds rest = true) :
    opensWithKeyword ("return".toList ++ rest) = true := by
  have hmem : "return".toList ∈ statementKeywords := by decide
  have hopens : opensWithWord ("return".toList ++ rest) "return".toList = true := by
    rw [opensWithWord, dropStart?_eq_some_iff.mpr rfl, Option.any_some, h]
  exact List.any_eq_true.mpr ⟨_, hmem, hopens⟩

theorem isStatementForm_return (rest : List Char) :
    isStatementForm ("return ".toList ++ rest) = true := by
  have hkeyword : opensWithKeyword ("return".toList ++ (' ' :: rest)) = true :=
    opensWithKeyword_return rfl
  have hsplit : "return ".toList ++ rest = "return".toList ++ (' ' :: rest) := rfl
  rw [hsplit, isStatementForm, hkeyword]
  rfl

theorem isReturnable_iff {s : LastStatement} : s.isReturnable = true ↔
    isStatementForm (s.statement.map Cell.char) = false ∧ s.expression ≠ [] := by
  simp [LastStatement.isReturnable]

/-! ## Where statements begin -/

namespace Returned

variable {source : List Char} {s : LastStatement} {before body dropped trailing : List Glyph}
  {semicolon : Glyph}

theorem ended_or_broken (h : Returned source s before body dropped semicolon trailing) :
    (Progress.initial.run before).ended = true ∨ (Progress.initial.run before).broken = true := by
  have hfresh := h.begins
  rw [Progress.isFresh, Bool.or_eq_true, Bool.and_eq_true] at hfresh
  exact hfresh.imp_right And.left

/-- The return statement begins where the last statement did. -/
theorem isFresh_return (h : Returned source s before body dropped semicolon trailing)
    (rest : List Glyph) : (Progress.initial.run before).isFresh (returnGlyphs ++ rest) = true := by
  have hr : continuesIn (returnGlyphs ++ rest) = false := by
    have hcons : returnGlyphs ++ rest = ⟨'r', .code⟩ :: (returnGlyphs.tail ++ rest) := rfl
    rw [hcons, continuesIn_cons_of_significant (by decide)]
    decide
  rw [Progress.isFresh, hr]
  rcases h.ended_or_broken with e | e <;> simp [e]

/-- Behind the word the walks over both texts are parallel. -/
theorem parallel (h : Returned source s before body dropped semicolon trailing) :
    Parallel (Spot.initial.run before).opening (Spot.initial.run before).seen
      (Progress.initial.run before) ((Progress.initial.run before).run returnGlyphs)
      (body ++ dropped) := by
  have hself : Parallel Spot.initial.opening Spot.initial.seen .initial .initial
      (before ++ (body ++ dropped)) := Parallel.initial _
  have hself := hself.runSpot
  rw [run_returnGlyphs]
  exact {
    line := rfl
    opened := ⟨[], (List.append_nil _).symm⟩
    called := by
      rintro (hcall | hcall)
      · exact hself.called (Or.inl hcall)
      · cases hcall
    agrees := by
      intro hseen _ hcall
      rcases h.ended_or_broken with hended | hbroken
      · rw [Progress.callClosed_of_ended (fun _ => rfl) hended] at hcall
        cases hcall
      · exact absurd (Progress.seen_of_broken (fun _ => rfl) hbroken) hseen
    ended := by rintro ⟨⟩
    broken := by rintro ⟨⟩ }

/-- Within the expression a statement begins behind the return word only at a detached semicolon:
the script has none there. -/
theorem atDetachedSemicolon_of_within
    (h : Returned source s before body dropped semicolon trailing) {first more rest : List Glyph}
    {g : Glyph} (hbody : body = first ++ g :: more) (hg : g.isSignificant = true)
    (hfresh : (((Progress.initial.run before).run returnGlyphs).run first).isFresh (g :: rest) =
      true) :
    atDetachedSemicolon source (newlines ((before ++ (returnGlyphs ++ first)).map Glyph.char)) =
      true := by
  have hpar := h.parallel
  rw [hbody, List.append_assoc, List.cons_append] at hpar
  rcases hpar.runSpot.isFresh_of_isFresh hg hfresh with hsource | hdetached
  · cases first with
    | nil =>
      rw [run_returnGlyphs] at hfresh
      cases hfresh
    | cons a first =>
      rw [h.within hbody (List.cons_ne_nil _ _)] at hsource
      cases hsource
  · rw [← Spot.run_append] at hdetached
    have hline : newlines ((before ++ (returnGlyphs ++ first)).map Glyph.char) =
        newlines ((before ++ first).map Glyph.char) := by
      have hzero : (returnGlyphs.map Glyph.char).count '\n' = 0 := by decide
      simp only [newlines, List.map_append, List.count_append, hzero, Nat.zero_add]
    have hsource : glyphs source = (before ++ first) ++ g :: (more ++ dropped) := by
      rw [h.source, hbody]
      simp only [List.append_assoc, List.cons_append]
    rw [hline, atDetachedSemicolon, glyphLines, hsource]
    exact Spot.isAtLine_of_isDetached hg hdetached

/-- A significant character of the returned text that begins a statement. -/
theorem of_isFresh (h : Returned source s before body dropped semicolon trailing)
    {first rest : List Glyph} {g : Glyph} (hsplit : glyphs s.returned = first ++ g :: rest)
    (hg : g.isSignificant = true)
    (hfresh : (Progress.initial.run first).isFresh (g :: rest) = true) :
    (∃ more, before = first ++ g :: more) ∨ first = before ∨
      atDetachedSemicolon source (newlines (first.map Glyph.char)) = true ∨
      (first = before ++ (returnGlyphs ++ body) ∧ g = semicolon ∧ rest = trailing) := by
  rw [h.returned] at hsplit
  rcases append_eq_append_cons hsplit with ⟨first, rfl, hword⟩ | ⟨more, hmore, -⟩
  · rcases append_eq_append_cons hword with ⟨first, rfl, hbody⟩ | ⟨more, hmore, -⟩
    · rcases append_eq_append_cons hbody with ⟨first, rfl, hend⟩ | ⟨more, hmore, -⟩
      · -- at the semicolon, or behind it
        cases first with
        | nil =>
          rw [List.nil_append, List.cons.injEq] at hend
          exact Or.inr (Or.inr (Or.inr ⟨by rw [List.append_nil], hend.1.symm, hend.2.symm⟩))
        | cons a first =>
          rw [List.cons_append, List.cons.injEq] at hend
          have hnot := h.trailingNot g (by rw [hend.2]; simp)
          rw [hg] at hnot
          cases hnot
      · -- within the expression
        rw [Progress.run_append, Progress.run_append] at hfresh
        exact Or.inr (Or.inr (Or.inl (h.atDetachedSemicolon_of_within hmore hg hfresh)))
    · -- within the word
      cases first with
      | nil => exact Or.inr (Or.inl (List.append_nil _))
      | cons a first =>
        rw [Progress.run_append, not_isFresh_in_word hmore (List.cons_ne_nil _ _)] at hfresh
        cases hfresh
  · exact Or.inl ⟨more, hmore⟩

section again

variable {again : LastStatement}

/-- What stands before the return word does not begin the last statement of the returned text. -/
theorem not_before (h : Returned source s before body dropped semicolon trailing)
    (hs : again.Stands)
    (hcells : cells s.returned = again.before ++ (again.statement ++ again.after))
    {g : Glyph} {more : List Glyph} (hmore : before = again.before.map Cell.glyph ++ g :: more) :
    False := by
  have hrest : (again.statement ++ again.after).map Cell.glyph =
      (g :: more) ++ ⟨'r', .code⟩ :: (returnGlyphs.tail ++ (body ++ semicolon :: trailing)) := by
    have hglyphs := (cells_of_append hcells).1
    rw [h.returned, hmore, List.append_assoc, List.append_cancel_left_eq] at hglyphs
    exact hglyphs.symm
  have hfresh := h.isFresh_return (body ++ semicolon :: trailing)
  rw [hmore, Progress.run_append] at hfresh
  have hnot := hs.not_isFresh_behind hcells hrest (List.cons_ne_nil _ _) (by decide)
  exact absurd (hfresh.symm.trans hnot) (by decide)

/-- A last statement that begins with the return word is a return statement. -/
theorem isStatementForm_of_before (h : Returned source s before body dropped semicolon trailing)
    (hs : again.Stands)
    (hcells : cells s.returned = again.before ++ (again.statement ++ again.after))
    (hbefore : again.before.map Cell.glyph = before) :
    isStatementForm (again.statement.map Cell.char) = true := by
  have hglyphs := (cells_of_append hcells).1
  rw [h.returned, hbefore, List.append_cancel_left_eq, List.map_append,
    List.append_eq_append_iff] at hglyphs
  rcases hglyphs with ⟨more, hmore, -⟩ | ⟨more, -, hafter⟩
  · have hchars := congrArg (List.map Glyph.char) hmore
    rw [map_char_glyph, List.map_append] at hchars
    rw [hchars]
    exact isStatementForm_return _
  · -- the expression is significant, so it does not stand behind the last statement
    obtain ⟨g, rest, hbody, hg⟩ := h.head
    have hmem : g ∈ again.after.map Cell.glyph := by
      rw [hafter, hbody]
      simp
    obtain ⟨d, hd, rfl⟩ := List.mem_map.mp hmem
    have hnot : d.glyph.isSignificant = false := hs.after d hd
    rw [hnot] at hg
    cases hg

/-- A last statement that is the semicolon is empty. -/
theorem expression_eq_nil (h : Returned source s before body dropped semicolon trailing)
    {c : Cell} {cs : List Cell} (hstatement : again.statement = c :: cs)
    (hc : c.isSignificant = true) (hg : c.glyph = semicolon)
    (htrailing : (cs ++ again.after).map Cell.glyph = trailing) : again.expression = [] := by
  have hnot : ∀ d ∈ cs, d.isSignificant = false := by
    intro d hd
    refine h.trailingNot d.glyph ?_
    rw [← htrailing]
    exact List.mem_map_of_mem (List.mem_append_left _ hd)
  have hlast : ∀ d ∈ [c].getLast?, Cell.isSignificant d = true := by
    intro d hd
    obtain rfl : c = d := Option.some.inj hd
    exact hc
  have hshown := upToLast_append_of_not hlast hnot
  have hchar : c.char = ';' := by
    rw [Cell.char, hg, h.char]
  rw [LastStatement.expression, hstatement, ← List.singleton_append, hshown, List.map_singleton,
    hchar]
  rfl

/-- The last statement of the returned text is the return statement, or it begins on a line at a
detached semicolon. -/
theorem of_lastStatement (h : Returned source s before body dropped semicolon trailing)
    (hagain : lastStatement? (cells s.returned) = some again)
    (hreturnable : again.isReturnable = true) :
    atDetachedSemicolon source (newlines (again.before.map Cell.char)) = true := by
  have hs := lastStatement?_stands hagain
  have hcells := lastStatement?_append hagain
  rw [List.append_assoc] at hcells
  obtain ⟨c, cs, hstatement, hc⟩ := hs.head
  have hfresh := hs.isFresh hcells
  have hglyphs := (cells_of_append hcells).1
  obtain ⟨hform, hexpression⟩ := isReturnable_iff.mp hreturnable
  have hcons : (again.statement ++ again.after).map Cell.glyph =
      c.glyph :: (cs ++ again.after).map Cell.glyph := by
    rw [hstatement]
    rfl
  rw [hcons] at hfresh hglyphs
  rcases h.of_isFresh hglyphs hc hfresh with ⟨more, hmore⟩ | hbefore | hat | ⟨-, hg, htrailing⟩
  · exact (h.not_before hs hcells hmore).elim
  · rw [h.isStatementForm_of_before hs hcells hbefore] at hform
    cases hform
  · rwa [map_char_glyph] at hat
  · exact absurd (h.expression_eq_nil hstatement hc hg htrailing) hexpression

end again

end Returned

theorem returnLast_cases (source : List Char) :
    (∃ s, lastStatement? (cells source) = some s ∧ s.isReturnable = true ∧
      returnLast source = ⟨s.returned, some s.line⟩) ∨ returnLast source = ⟨source, none⟩ := by
  unfold returnLast
  split
  · next s hs =>
    split
    · next hreturnable => exact Or.inl ⟨s, hs, hreturnable, rfl⟩
    · exact Or.inr rfl
  · exact Or.inr rfl

/-- A script is returned again only at a detached semicolon. -/
theorem atDetachedSemicolon_of_rereturned {source : List Char} {k : Nat}
    (h : (returnLast (returnLast source).text).line = some (k + 1)) :
    atDetachedSemicolon source k = true := by
  rcases returnLast_cases source with ⟨s, hs, hreturnable, e⟩ | e
  · rw [e] at h
    rcases returnLast_cases s.returned with ⟨again, hagain, hreturnableAgain, e'⟩ | e'
    · rw [e'] at h
      obtain rfl : newlines (again.before.map Cell.char) = k :=
        Nat.succ.inj (Option.some.inj h)
      obtain ⟨before, body, dropped, semicolon, trailing, hread⟩ :=
        exists_returned hs (isReturnable_iff.mp hreturnable).2
      exact hread.of_lastStatement hagain hreturnableAgain
    · rw [e'] at h
      cases h
  · rw [e] at h
    rw [show (⟨source, none⟩ : Returning).text = source from rfl, e] at h
    cases h

end SnippetRunner.Script
