import SnippetRunner.Proofs.Script.Recapture
import SnippetRunner.Proofs.Script.ReturnCut
import SnippetRunner.Proofs.Source.CommentVeil

/-
  A line of a script behind the veil over its comments. The veil takes nothing from a line but
  what its comments say, so the line is cut into the same parts, and the capture pass decides on it
  as it does on the line itself. For that the line has to begin in code, and its end must not be
  part of a comment: a carriage return in a comment goes with the line end, a mark does not.
-/
namespace SnippetRunner.Script

open SnippetRunner.Text SnippetRunner.Source

/-! ## Expressions and forms -/

/-- How an expression was cut off tells it. -/
theorem expression_of_append {s e blanks semicolon : List Char} (h : s = e ++ (blanks ++ semicolon))
    (he : ∀ c ∈ e.getLast?, isBlank c = false) (hblanks : ∀ c ∈ blanks, isBlank c = true)
    (hsemicolon : semicolon = [';'] ∨ (semicolon = [] ∧ s.getLast? ≠ some ';')) :
    trimEnd (dropSemicolon s) = e := by
  have hdrop : dropSemicolon s = e ++ blanks := by
    rcases hsemicolon with rfl | ⟨rfl, hlast⟩
    · rw [dropSemicolon, h, ← List.append_assoc, if_pos (by simp), List.dropLast_concat]
    · rw [dropSemicolon, if_neg hlast, h, List.append_nil]
  have hreverse : ∀ c ∈ blanks.reverse, isBlank c = true :=
    fun c hc => hblanks c (List.mem_reverse.mp hc)
  rw [hdrop, trimEnd, List.reverse_append, List.dropWhile_append_of_pos hreverse,
    dropWhile_eq_self (by simpa using he), List.reverse_reverse]

section

variable {gs : List Glyph}

/-- From a place outside comments on the veil shows the text up to the slash of a comment. -/
theorem alike_comment (hchain : gs.IsChain Borders)
    (hhead : ∀ g ∈ gs.head?, g.isComment = false) :
    Alike ['/'] [] (gs.map Glyph.char) ((inComments.veil gs).map Glyph.char) := by
  induction gs with
  | nil => exact .nil
  | cons g gs ih =>
    have hg := hhead g rfl
    rw [Cover.veil_cons, Cover.seen_of_not (not_hides_of_not_isComment hg)]
    refine .cons g.char ?_
    cases gs with
    | nil => exact .nil
    | cons h gs =>
      cases hh : h.isComment with
      | false => exact ih hchain.of_cons fun d hd => by rwa [← Option.some.inj hd]
      | true =>
        have hslash := (List.isChain_cons_cons.mp hchain).1.opensComment hg hh
        have hides : inComments.hides h = true := hides_iff.mpr ⟨hh, by rw [hslash]; decide⟩
        obtain ⟨n, hn⟩ := Nat.exists_eq_succ_of_ne_zero (Nat.ne_of_gt h.char.utf8Size_pos)
        rw [Cover.veil_cons, Cover.seen_of_hidden hides, hn, List.replicate_succ]
        exact .edge (by rw [hslash]; decide) (List.mem_singleton_self '/') _ _

/-- A text whose last character is seen ends behind the veil as it does in front of it. -/
theorem getLast?_char_veil (hlast : ∀ g ∈ gs.getLast?, g.isSignificant = true) :
    ((inComments.veil gs).map Glyph.char).getLast? = (gs.map Glyph.char).getLast? := by
  rw [List.getLast?_map, List.getLast?_map]
  cases hg : gs.getLast? with
  | none =>
    rw [List.getLast?_eq_none_iff.mp hg]
    rfl
  | some g => rw [getLast?_veil hg (not_hides_of_isSignificant (hlast g hg))]

theorem opensWithKeyword_alike {s t : List Char} (h : Alike ['/'] [] s t) :
    opensWithKeyword s = opensWithKeyword t := by
  have hword : ∀ word ∈ statementKeywords, ∀ c ∈ word, c ∉ ['/'] ∧ c ∉ ([] : List Char) := by
    have hinner : statementKeywords.all (fun word => word.all (· ≠ '/')) = true := by decide
    intro word hword c hc
    have hc := List.all_eq_true.mp (List.all_eq_true.mp hinner word hword) c hc
    exact ⟨by simpa using hc, List.not_mem_nil⟩
  rw [opensWithKeyword, opensWithKeyword, Bool.eq_iff_iff, List.any_eq_true, List.any_eq_true]
  refine exists_congr fun word => and_congr_right fun hmem => ?_
  rw [opensWithWord, opensWithWord, h.dropStart?_any (hword word hmem) fun {rest rest'} hrest => by
    rw [identifierEnds, identifierEnds,
      hrest.any_head? (List.forall_mem_singleton.mpr (by decide))]]

theorem dropStart?_alike {s t start : List Char} (h : Alike ['/'] [] s t)
    (hstart : start.all (· ≠ '/') = true) :
    (dropStart? start s).isSome = (dropStart? start t).isSome := by
  refine h.dropStart?_isSome fun c hc => ⟨?_, List.not_mem_nil⟩
  simpa using List.all_eq_true.mp hstart c hc

theorem isSkippedForm_alike {s t : List Char} (h : Alike ['/'] [] s t)
    (hlast : s.getLast? = t.getLast?) : isSkippedForm s = isSkippedForm t := by
  rw [isSkippedForm, isSkippedForm, opensWithKeyword_alike h,
    h.all_eq (List.forall_mem_singleton.mpr (by decide)),
    h.any_head? (List.forall_mem_singleton.mpr (by decide)), hlast,
    dropStart?_alike h (by decide), dropStart?_alike h (by decide)]

theorem isStatementForm_alike {s t : List Char} (h : Alike ['/'] [] s t) :
    isStatementForm s = isStatementForm t := by
  rw [isStatementForm, isStatementForm, opensWithKeyword_alike h,
    h.any_head? (List.forall_mem_singleton.mpr (by decide)), dropStart?_alike h (by decide)]

/-- On a line no blank and no semicolon is the last character of a comment. -/
theorem not_isComment_of_dropped (hchain : gs.IsChain Borders)
    (hfeedless : ∀ g ∈ gs, g.char ≠ '\n') (hlast : ∀ g ∈ gs.getLast?, g.isSignificant = true)
    {body dropped : List Glyph} (h : gs = body ++ dropped)
    (hdropped : ∀ g ∈ dropped, g.char ≠ '/') : ∀ g ∈ dropped, g.isComment = false := by
  by_contra hex
  have hany : dropped.any Glyph.isComment = true := by
    rw [List.any_eq_true]
    simpa using hex
  obtain ⟨init, g, after, -, hsplit, hg, hafter⟩ := exists_upToLast hany
  have hgs : gs = (body ++ init) ++ g :: after := by
    rw [h, hsplit]
    simp
  cases after with
  | nil =>
    have hsig := hlast g (by rw [hgs]; simp)
    rw [not_significant_of_isComment hg] at hsig
    cases hsig
  | cons d after =>
    rw [hgs, List.isChain_append] at hchain
    have hborders := (List.isChain_cons_cons.mp hchain.2.1).1
    rcases hborders.closesComment hg (hafter d (List.mem_cons_self ..)) with hslash | hfeed
    · exact hdropped g (by rw [hsplit]; simp) hslash
    · exact hfeedless d (by rw [hgs]; simp) hfeed

/-- What is cut off behind the expression of a statement is seen; so the statement has the same
expression behind the veil, but for the comments in it. -/
theorem exists_seen_expression (hchain : gs.IsChain Borders)
    (hfeedless : ∀ g ∈ gs, g.char ≠ '\n') (hlast : ∀ g ∈ gs.getLast?, g.isSignificant = true) :
    ∃ body dropped, gs = body ++ dropped ∧
      body.map Glyph.char = trimEnd (dropSemicolon (gs.map Glyph.char)) ∧
      (inComments.veil body).map Glyph.char =
        trimEnd (dropSemicolon ((inComments.veil gs).map Glyph.char)) := by
  obtain ⟨blanks, semicolon, hsplit, hblanks, hsemicolon, hsemi⟩ :=
    expression_append (gs.map Glyph.char)
  obtain ⟨body, dropped, hgs, hbody, hdropped⟩ := List.map_eq_append_iff.mp hsplit
  have hchars : ∀ g ∈ dropped, g.char ≠ '/' := by
    intro g hg hslash
    have hmem : '/' ∈ blanks ++ semicolon := by
      rw [← hdropped, ← hslash]
      exact List.mem_map_of_mem hg
    rcases List.mem_append.mp hmem with hmem | hmem
    · exact absurd (hblanks _ hmem) (by decide)
    · rcases hsemicolon with rfl | rfl
      · cases hmem
      · exact absurd (List.mem_singleton.mp hmem) (by decide)
  have hnot := not_isComment_of_dropped hchain hfeedless hlast hgs hchars
  have hveil : (inComments.veil gs).map Glyph.char =
      (inComments.veil body).map Glyph.char ++ (blanks ++ semicolon) := by
    have hseen : inComments.veil dropped = dropped :=
      Cover.veil_eq_self fun g hg => not_hides_of_not_isComment (hnot g hg)
    rw [hgs, Cover.veil_append, hseen, List.map_append, hdropped]
  refine ⟨body, dropped, hgs, hbody, (expression_of_append hveil ?_ hblanks ?_).symm⟩
  · intro c hc
    have htrimmed := getLast?_trimEnd (dropSemicolon (gs.map Glyph.char))
    rw [← hbody, List.getLast?_map] at htrimmed
    rw [List.getLast?_map, Option.mem_map] at hc
    obtain ⟨b, hb, rfl⟩ := hc
    rcases of_getLast?_veil hb with hlast | hslash
    · rw [hlast] at htrimmed
      simpa using htrimmed
    · rw [hslash]
      decide
  · by_cases hend : (gs.map Glyph.char).getLast? = some ';'
    · exact Or.inl (hsemi hend)
    · rw [getLast?_char_veil hlast]
      rcases hsemicolon with rfl | rfl
      · exact Or.inr ⟨rfl, hend⟩
      · exact Or.inl rfl

end

/-! ## The parts of a line -/

namespace Parts

variable {gs : List Glyph}

/-- A line can be cut in one way only. -/
theorem unique (a b : Parts gs) : a = b := by
  have hindent (parts : Parts gs) : parts.indent =
      (Line.ofPiece (Progress.initial.cellsTo gs [])).indent.map Cell.glyph := by
    rw [parts.indent_eq, Progress.map_glyph_cellsTo]
  have hstatement (parts : Parts gs) : parts.statement =
      (Line.ofPiece (Progress.initial.cellsTo gs [])).statement.map Cell.glyph := by
    rw [parts.statement_eq, Progress.map_glyph_cellsTo]
  have hterminator (parts : Parts gs) : parts.terminator =
      (Line.ofPiece (Progress.initial.cellsTo gs [])).terminator.map Cell.glyph := by
    rw [parts.line_eq, Progress.map_glyph_cellsTo]
  have hi := (hindent a).trans (hindent b).symm
  have hs := (hstatement a).trans (hstatement b).symm
  have ht := (hterminator a).trans (hterminator b).symm
  have hafter : a.after = b.after := by
    have hjoin := a.join.symm.trans b.join
    rw [hi, hs, ht] at hjoin
    exact List.append_cancel_left (List.append_cancel_left (List.append_cancel_right hjoin))
  cases a
  cases b
  cases hi
  cases hs
  cases ht
  cases hafter
  rfl

/-- The parts of the same line under another name. -/
def cast {hs : List Glyph} (h : gs = hs) (parts : Parts gs) : Parts hs :=
  { parts with join := h ▸ parts.join }

/-- The glyphs of the expression of a line. -/
def body (parts : Parts gs) : List Glyph := parts.statement.take parts.expression.length

/-- Behind the expression of a line its statement has only blanks and a semicolon. -/
theorem exists_spare (parts : Parts gs) :
    ∃ spare, parts.statement = parts.body ++ spare ∧
      parts.body.map Glyph.char = parts.expression ∧
      ∀ g ∈ spare, isBlank g.char = true ∨ g.char = ';' := by
  obtain ⟨blanks, semicolon, hsplit, hblanks, hsemicolon, -⟩ :=
    expression_append (parts.statement.map Glyph.char)
  have hstatement : parts.statement =
      parts.body ++ parts.statement.drop parts.expression.length := (List.take_append_drop ..).symm
  have hbody : parts.body.map Glyph.char = parts.expression := by
    rw [body, List.map_take]
    conv_lhs => arg 2; rw [hsplit]
    exact List.take_left
  have hspare : (parts.statement.drop parts.expression.length).map Glyph.char =
      blanks ++ semicolon := by
    rw [List.map_drop]
    conv_lhs => arg 2; rw [hsplit]
    exact List.drop_left
  refine ⟨_, hstatement, hbody, fun g hg => ?_⟩
  have hchar : g.char ∈ blanks ++ semicolon := hspare ▸ List.mem_map_of_mem hg
  rcases List.mem_append.mp hchar with hblank | hsemi
  · exact Or.inl (hblanks _ hblank)
  · rcases hsemicolon with rfl | rfl
    · cases hsemi
    · exact Or.inr (List.mem_singleton.mp hsemi)

theorem exists_body (parts : Parts gs) :
    ∃ dropped, parts.statement = parts.body ++ dropped ∧
      parts.body.map Glyph.char = parts.expression := by
  obtain ⟨spare, hstatement, hbody, -⟩ := parts.exists_spare
  exact ⟨spare, hstatement, hbody⟩

/-- A line around its expression. -/
theorem join_body (parts : Parts gs) {spare : List Glyph}
    (h : parts.statement = parts.body ++ spare) :
    gs = parts.indent ++ (parts.body ++ (spare ++ (parts.after ++ parts.terminator))) := by
  have hjoin := parts.join_statement
  rwa [h, List.append_assoc] at hjoin

/-- What the expression of a line says outside comments. -/
def code (parts : Parts gs) : List Char := uncommented parts.body

variable (parts : Parts gs) (hindent : ∀ g ∈ parts.indent, g.isComment = false)
  (hterminator : ∀ g ∈ parts.terminator, inComments.hides g = false)

/-- The parts of the line behind the veil. -/
def veil : Parts (inComments.veil gs) where
  indent := parts.indent
  statement := inComments.veil parts.statement
  after := inComments.veil parts.after
  terminator := parts.terminator
  join := by
    conv_lhs => rw [parts.join]
    rw [Cover.veil_append, Cover.veil_append, Cover.veil_append,
      Cover.veil_eq_self fun g hg => not_hides_of_not_isComment (hindent g hg),
      Cover.veil_eq_self hterminator]
  indentBlank := parts.indentBlank
  headNotBlank := by
    intro g hg
    rw [← Cover.veil_append] at hg
    rcases of_head?_veil hg with hg | ⟨-, hslash, -⟩
    · exact parts.headNotBlank g hg
    · rw [hslash]
      decide
  lastSignificant := by
    intro g hg
    cases hlast : parts.statement.getLast? with
    | none =>
      rw [List.getLast?_eq_none_iff.mp hlast] at hg
      cases hg
    | some d =>
      have hsig := parts.lastSignificant d hlast
      rw [getLast?_veil hlast (not_hides_of_isSignificant hsig)] at hg
      rwa [← Option.some.inj hg]
  afterNot := by
    intro g hg
    rcases of_mem_veil hg with hg | ⟨hcomment, -⟩
    · exact parts.afterNot g hg
    · exact not_significant_of_isComment hcomment
  feedless := by
    intro g hg
    rw [← Cover.veil_append] at hg
    rcases List.mem_append.mp hg with hg | hg
    · exact parts.indent_feedless g hg
    · rcases of_mem_veil hg with hg | ⟨-, hchar, -⟩
      · exact parts.feedless g (List.mem_append_right _ hg)
      · exact hchar
  terminated := by
    have hveil : parts.indent ++ (inComments.veil parts.statement ++ inComments.veil parts.after) =
        inComments.veil (parts.indent ++ (parts.statement ++ parts.after)) := by
      rw [Cover.veil_append, Cover.veil_append,
        Cover.veil_eq_self fun g hg => not_hides_of_not_isComment (hindent g hg)]
    rw [hveil]
    rcases parts.terminated with ht | ⟨feed, hfeed, ⟨ht, hlast⟩ | hreturn⟩
    · exact Or.inl ht
    · refine Or.inr ⟨feed, hfeed, Or.inl ⟨ht, fun g hg => ?_⟩⟩
      rcases of_getLast?_veil hg with hg | hslash
      · exact hlast g hg
      · rw [hslash]
        decide
    · exact Or.inr ⟨feed, hfeed, Or.inr hreturn⟩

theorem statement_chain (hchain : gs.IsChain Borders) : parts.statement.IsChain Borders := by
  rw [parts.join] at hchain
  exact hchain.left_of_append.right_of_append.left_of_append

theorem statement_feedless : ∀ g ∈ parts.statement, g.char ≠ '\n' :=
  fun g hg => parts.feedless g (List.mem_append_right _ (List.mem_append_left _ hg))

/-- The expression behind the veil. -/
theorem body_veil (hchain : gs.IsChain Borders) :
    (parts.veil hindent hterminator).body = inComments.veil parts.body := by
  obtain ⟨body, dropped, hstatement, hbody, hseen⟩ :=
    exists_seen_expression (parts.statement_chain hchain) parts.statement_feedless
      parts.lastSignificant
  have hexpression : (inComments.veil body).map Glyph.char =
      (parts.veil hindent hterminator).expression := hseen
  have hveil : (parts.veil hindent hterminator).statement =
      inComments.veil body ++ inComments.veil dropped :=
    (congrArg inComments.veil hstatement).trans (Cover.veil_append ..)
  rw [Parts.body, Parts.body, hveil, ← hexpression, hstatement, expression, ← hbody,
    List.length_map, List.length_map, List.take_left, List.take_left]

theorem dropLast_veil :
    (inComments.veil parts.statement).dropLast = inComments.veil parts.statement.dropLast := by
  cases parts.statement.eq_nil_or_concat' with
  | inl hnil => rw [hnil]; rfl
  | inr hconcat =>
    obtain ⟨init, g, e⟩ := hconcat
    have hsig := parts.lastSignificant g (by rw [e, List.getLast?_concat]; rfl)
    rw [e, Cover.veil_append, Cover.veil_singleton,
      Cover.seen_of_not (not_hides_of_isSignificant hsig), List.dropLast_concat,
      List.dropLast_concat]

/-- A statement that begins with no comment begins so behind the veil, and only such a one. -/
theorem head?_seen {g : Glyph} (hg : g.isComment = false) :
    (inComments.veil parts.statement).head? = some g ↔ parts.statement.head? = some g := by
  constructor
  · intro h
    refine (of_head?_veil h).resolve_right fun hmark => ?_
    rw [hg] at hmark
    cases hmark.1
  · exact fun h => head?_veil h (not_hides_of_not_isComment hg)

theorem captures_veil (hchain : gs.IsChain Borders) (p : Progress) (fromCode : Bool)
    (f : List Glyph) :
    Captures (parts.veil hindent hterminator) p fromCode (inComments.veil f) ↔
      Captures parts p fromCode f := by
  have hbegins : (∃ g ∈ (inComments.veil parts.statement).head?, g.isComment = false ∧
        (p.ended || (p.broken && !isContinuation g.char)) = true) ↔
      ∃ g ∈ parts.statement.head?, g.isComment = false ∧
        (p.ended || (p.broken && !isContinuation g.char)) = true := by
    refine exists_congr fun g => ?_
    constructor
    · exact fun h => ⟨(parts.head?_seen h.2.1).mp h.1, h.2⟩
    · exact fun h => ⟨(parts.head?_seen h.2.1).mpr h.1, h.2⟩
  have hform (h : ∃ g ∈ parts.statement.head?, g.isComment = false ∧
      (p.ended || (p.broken && !isContinuation g.char)) = true) :
      isSkippedForm ((inComments.veil parts.statement).map Glyph.char) =
        isSkippedForm (parts.statement.map Glyph.char) := by
    obtain ⟨g, hg, hcomment, -⟩ := h
    have halike := alike_comment (parts.statement_chain hchain) fun d hd => by
      rwa [← Option.some.inj (hg.symm.trans hd)]
    exact (isSkippedForm_alike halike (getLast?_char_veil parts.lastSignificant).symm).symm
  have hlast : (inComments.veil parts.statement).getLast?.map Glyph.char =
      parts.statement.getLast?.map Glyph.char := by
    rw [← List.getLast?_map, ← List.getLast?_map, getLast?_char_veil parts.lastSignificant]
  have hsingle : (p.run parts.indent).endsWithin (inComments.veil parts.statement).dropLast =
      (p.run parts.indent).endsWithin parts.statement.dropLast := by
    rw [dropLast_veil, Progress.endsWithin_veil]
  have hnonempty : (parts.veil hindent hterminator).expression ≠ [] ↔ parts.expression ≠ [] := by
    obtain ⟨-, -, hbody⟩ := parts.exists_body
    obtain ⟨-, -, hseen⟩ := (parts.veil hindent hterminator).exists_body
    rw [← hseen, ← hbody, parts.body_veil hindent hterminator hchain, Ne, List.map_eq_nil_iff,
      Cover.veil_eq_nil, Ne, List.map_eq_nil_iff]
  constructor
  · intro h
    have h' := hbegins.mp h.begins
    exact ⟨h.outer, by rw [← p.run_veil]; exact h.outerAfter, h.fromCode, h.endsInCode, h',
      by rw [← hform h']; exact h.form, by rw [← hsingle]; exact h.single,
      by rw [← hlast, ← continuesIn_veil]; exact h.ends, hnonempty.mp h.nonempty⟩
  · intro h
    exact ⟨h.outer, by rw [p.run_veil]; exact h.outerAfter, h.fromCode, h.endsInCode,
      hbegins.mpr h.begins, (hform h.begins).trans h.form, hsingle.trans h.single,
      by rw [continuesIn_veil]; exact hlast.symm ▸ h.ends, hnonempty.mpr h.nonempty⟩

end Parts

end SnippetRunner.Script
