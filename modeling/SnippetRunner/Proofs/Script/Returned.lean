import SnippetRunner.Proofs.Script.Recapture
import SnippetRunner.Proofs.Script.LastStatement
import SnippetRunner.Proofs.Source.Fresh

/-
  How a returned text is read. Up to the last statement and within its expression it is read like
  the script it comes from, and nothing significant follows the semicolon behind the expression.
-/
namespace SnippetRunner.Script

open SnippetRunner.Text SnippetRunner.Source

/-- The glyphs of the word that begins a return statement, and of the blank behind it. -/
def returnGlyphs : List Glyph := "return ".toList.map (⟨·, .code⟩)

/-- The glyphs of a script and of its returned text: `before` stands before the last statement,
`body` is the expression, and `dropped` follows it in the script, `semicolon` and `trailing` in
the returned text. -/
structure Returned (source : List Char) (s : LastStatement) (before body dropped : List Glyph)
    (semicolon : Glyph) (trailing : List Glyph) : Prop where
  source : glyphs source = before ++ (body ++ dropped)
  returned : glyphs s.returned = before ++ (returnGlyphs ++ (body ++ semicolon :: trailing))
  beforeEq : before = s.before.map Cell.glyph
  head : ∃ g more, body = g :: more ∧ g.isSignificant = true
  begins : (Progress.initial.run before).isFresh (body ++ dropped) = true
  within : ∀ {first more g}, body = first ++ g :: more → first ≠ [] →
    ((Progress.initial.run before).run first).isFresh (g :: (more ++ dropped)) = false
  char : semicolon.char = ';'
  trailingNot : ∀ g ∈ trailing, g.isSignificant = false
  slight : ∀ g ∈ dropped, g.isSlight = true

/-! ## Cells of parts -/

theorem cells_of_append {source : List Char} {a b : List Cell} (h : cells source = a ++ b) :
    glyphs source = a.map Cell.glyph ++ b.map Cell.glyph ∧
      a = Progress.initial.cellsTo (a.map Cell.glyph) (b.map Cell.glyph) ∧
      b = (Progress.initial.run (a.map Cell.glyph)).cellsTo (b.map Cell.glyph) [] := by
  rw [cells_eq_cellsTo] at h
  obtain ⟨hglyphs, ha, hb⟩ := Progress.cellsTo_eq_append h
  rw [List.append_nil] at ha
  exact ⟨hglyphs, ha, hb⟩

/-- Behind a boundary, or at the start of a script, a statement begins. -/
theorem isFresh_of_getLast? {gs rest : List Glyph}
    (h : ∀ c ∈ (Progress.initial.cellsTo gs rest).getLast?, c.boundary = true) :
    (Progress.initial.run gs).isFresh rest = true := by
  cases gs.eq_nil_or_concat' with
  | inl hnil =>
    rw [hnil]
    rfl
  | inr hconcat =>
    obtain ⟨init, g, rfl⟩ := hconcat
    rw [Progress.getLast?_cellsTo] at h
    rw [Progress.run_concat]
    exact Progress.isFresh_of_boundary (h _ rfl)

section

variable {source : List Char} {s : LastStatement}

/-- A last statement begins where the walk has it so. -/
theorem LastStatement.Stands.isFresh (hs : s.Stands)
    (h : cells source = s.before ++ (s.statement ++ s.after)) :
    (Progress.initial.run (s.before.map Cell.glyph)).isFresh
      ((s.statement ++ s.after).map Cell.glyph) = true := by
  obtain ⟨earlier, lead, hbefore, hlast, hlead⟩ := hs.begins
  rw [hbefore, List.append_assoc] at h
  obtain ⟨-, hearlier, -⟩ := cells_of_append h
  have hfresh := isFresh_of_getLast? (by rwa [hearlier] at hlast)
  rw [hbefore, List.map_append, Progress.run_append]
  rw [List.map_append] at hfresh
  refine Progress.isFresh_run_of_not (fun g hg => ?_) hfresh
  obtain ⟨c, hc, rfl⟩ := List.mem_map.mp hg
  exact hlead c hc

/-- Within a last statement no other begins. -/
theorem LastStatement.Stands.not_isFresh (hs : s.Stands)
    (h : cells source = s.before ++ (s.statement ++ s.after)) {first more : List Glyph} {g : Glyph}
    (hsplit : s.statement.map Cell.glyph = first ++ g :: more) (hne : first ≠ []) :
    ((Progress.initial.run (s.before.map Cell.glyph)).run first).isFresh
      (g :: (more ++ s.after.map Cell.glyph)) = false := by
  obtain ⟨-, -, hrest⟩ := cells_of_append h
  obtain ⟨c, cs, hstatement, hc⟩ := hs.head
  obtain ⟨a, first', rfl⟩ := List.exists_cons_of_ne_nil hne
  have ha : a.isSignificant = true := by
    rw [hstatement, List.map_cons, List.cons_append, List.cons.injEq] at hsplit
    rw [← hsplit.1]
    exact hc
  refine Progress.not_isFresh_behind ha fun d hd => hs.single d ?_
  obtain ⟨-, hcells, -⟩ := Progress.cellsTo_eq_append hrest.symm
  rw [List.append_nil, hsplit] at hcells
  rw [hcells, Progress.cellsTo_append, List.dropLast_append_of_ne_nil
    (Progress.cellsTo_eq_nil.not.mpr (List.cons_ne_nil _ _))]
  exact List.mem_append_left _ hd

/-- Behind the beginning of the last statement none begins. -/
theorem LastStatement.Stands.not_isFresh_behind (hs : s.Stands)
    (h : cells source = s.before ++ (s.statement ++ s.after)) {first more : List Glyph} {g : Glyph}
    (hsplit : (s.statement ++ s.after).map Cell.glyph = first ++ g :: more) (hne : first ≠ [])
    (hg : g.isSignificant = true) :
    ((Progress.initial.run (s.before.map Cell.glyph)).run first).isFresh (g :: more) = false := by
  rw [List.map_append] at hsplit
  rcases append_eq_append_cons hsplit with ⟨behind, -, hafter⟩ | ⟨inner, hstatement, hmore⟩
  · have hmem : g ∈ s.after.map Cell.glyph := by
      rw [hafter]
      simp
    obtain ⟨d, hd, rfl⟩ := List.mem_map.mp hmem
    have hnot : d.glyph.isSignificant = false := hs.after d hd
    rw [hnot] at hg
    cases hg
  · rw [hmore]
    exact hs.not_isFresh h hstatement hne

end

/-! ## Reading a returned text -/

/-- Behind its expression a returned text is read as the script is, if anything follows there. -/
theorem trailing_not {final : Lexer} {dropped inner after tail : List Char}
    (hends : final.Ends dropped (inner ++ after) none)
    (hready : final.Ready (some ';')) (htail : tail = (dropped ++ inner).filter (· = '\n'))
    (hcode : after ≠ [] → (final.run (dropped ++ inner) after.head?).mode = .code) :
    ∀ g ∈ (final.step ';' (tail ++ after).head?).2.glyphsFrom (tail ++ after),
      g.isSignificant = false := by
  have hfeeds : ∀ c ∈ tail, c = '\n' := by
    intro c hc
    rw [htail] at hc
    simpa using (List.mem_filter.mp hc).2
  rw [Lexer.glyphsFrom_append]
  intro g hg
  rcases List.mem_append.mp hg with hg | hg
  · have hmem : g.char ∈ tail := by
      rw [← Lexer.map_char_glyphsTo (final.step ';' (tail ++ after).head?).2 tail after.head?]
      exact List.mem_map_of_mem hg
    apply Glyph.not_significant_of_isAsciiBlank
    rw [hfeeds _ hmem]
    decide
  · have hne : after ≠ [] := by
      rintro rfl
      cases hg
    -- both texts are back in code, with the same brackets open
    have hinner := hends.of_append
    rw [Option.or_none] at hinner
    obtain ⟨hrun, hmode⟩ := hinner.run_eq (hcode hne)
    have hfeed : '\n' ∈ dropped ++ inner → tail ≠ [] := by
      intro hmem hnil
      rw [htail, List.filter_eq_nil_iff] at hnil
      exact hnil _ hmem (by simp)
    have hsemicolon := @Lexer.run_semicolon final tail after.head? hready
      (hmode.imp_right (And.imp_right hfeed)) hfeeds
    refine hends.trailing g ?_
    rw [Lexer.glyphsTo_append, Option.or_none, Option.or_none]
    refine List.mem_append_right _ ?_
    rw [Lexer.run_append] at hrun
    rw [List.head?_append, hrun, ← hsemicolon]
    rw [Lexer.glyphsFrom_eq_glyphsTo, List.head?_append] at hg
    exact hg

/-- Where the last statement begins the lexer is in code. -/
theorem mode_of_begins {before text : List Char} {g : Glyph} {more : List Glyph}
    (hglyphs : (Lexer.initial.run before text.head?).glyphsFrom text = g :: more)
    (hg : g.isSignificant = true)
    (hfresh :
      (Progress.initial.run (Lexer.initial.glyphsTo before text.head?)).isFresh (g :: more) =
        true) :
    (Lexer.initial.run before text.head?).mode = .code := by
  cases text with
  | nil => cases hglyphs
  | cons c text =>
    rw [Lexer.glyphsFrom, List.cons.injEq] at hglyphs
    rw [← hglyphs.1] at hg
    refine Lexer.code_of_isBetween (Lexer.isBetween_run (p := .initial) (fun _ => rfl) ?_) hg
    rw [Progress.isFresh, Bool.or_eq_true, Bool.and_eq_true] at hfresh
    exact hfresh.imp_right And.left

/-- What leads up to code is read the same way before anything that makes up no mark. -/
theorem same_before {before : List Char} {next next' : Option Char}
    (hcode : (Lexer.initial.run before next).mode = .code) (hnext : next'.any isMark = false) :
    Lexer.initial.glyphsTo before next' = Lexer.initial.glyphsTo before next ∧
      Lexer.initial.run before next' = Lexer.initial.run before next := by
  cases before.eq_nil_or_concat' with
  | inl hnil =>
    rw [hnil]
    exact ⟨rfl, rfl⟩
  | inr hconcat =>
    obtain ⟨init, c, rfl⟩ := hconcat
    rw [Lexer.run_concat] at hcode
    have hsettled : ((Lexer.initial.run init (some c)).step c next).2.mode.isSettled = true := by
      rw [hcode]
      rfl
    have hsame := Lexer.glyphsTo_eq_of_last (Lexer.step_eq_of_settled hsettled hnext)
    exact ⟨hsame.1.symm, hsame.2.symm⟩

/-- How a script is read around its last statement: in state `l` where the statement begins, and
in state `final` behind its expression; `cut` and `inner` follow that in the statement. -/
structure Around (source : List Char) (s : LastStatement) (l final : Lexer)
    (cut inner : List Char) : Prop where
  statement : s.statement.map Cell.char = s.expression ++ (cut ++ inner)
  before : ∃ next, s.before.map Cell.glyph = Lexer.initial.glyphsTo (s.before.map Cell.char) next ∧
    l = Lexer.initial.run (s.before.map Cell.char) next
  mode : l.mode = .code
  rest : (s.statement ++ s.after).map Cell.glyph = l.glyphsTo s.expression (some ';') ++
    final.glyphsTo (cut ++ (inner ++ s.after.map Cell.char)) none
  state : l.run s.expression (some ';') = final
  ends : final.Ends cut (inner ++ s.after.map Cell.char) none
  closed : s.after.map Cell.char ≠ [] →
    (final.run (cut ++ inner) (s.after.map Cell.char).head?).mode = .code

/-- The lexer stands in code where the last statement begins. -/
theorem exists_lexer_at {source : List Char} {s : LastStatement}
    (h : lastStatement? (cells source) = some s) : ∃ l,
      (∃ next, s.before.map Cell.glyph = Lexer.initial.glyphsTo (s.before.map Cell.char) next ∧
        l = Lexer.initial.run (s.before.map Cell.char) next) ∧
      (s.statement ++ s.after).map Cell.glyph =
        l.glyphsTo ((s.statement ++ s.after).map Cell.char) none ∧ l.mode = .code := by
  have hs := lastStatement?_stands h
  have hcells := lastStatement?_append h
  rw [List.append_assoc] at hcells
  have hglyphs := (cells_of_append hcells).1
  rw [glyphs, Lexer.glyphsFrom_eq_glyphsTo] at hglyphs
  obtain ⟨-, hbefore, hrest⟩ := Lexer.glyphsTo_eq_append hglyphs
  simp only [map_char_glyph, Option.or_none] at hbefore hrest
  obtain ⟨c, cs, hstatement, hc⟩ := hs.head
  have hhead : (s.statement ++ s.after).map Cell.glyph =
      c.glyph :: (cs ++ s.after).map Cell.glyph := by
    rw [hstatement]
    rfl
  have hfresh := hs.isFresh hcells
  rw [hhead] at hrest hfresh
  rw [hbefore] at hfresh
  refine ⟨_, ⟨_, hbefore, rfl⟩, hhead.trans hrest, mode_of_begins ?_ hc hfresh⟩
  rw [Lexer.glyphsFrom_eq_glyphsTo]
  exact hrest.symm

/-- If anything follows the last statement, a boundary ends it, which is code. -/
theorem mode_behind {source : List Char} {s : LastStatement} {l : Lexer}
    (h : lastStatement? (cells source) = some s)
    (hread : (s.statement ++ s.after).map Cell.glyph =
      l.glyphsTo ((s.statement ++ s.after).map Cell.char) none)
    (hne : s.after.map Cell.char ≠ []) :
    (l.run (s.statement.map Cell.char) (s.after.map Cell.char).head?).mode = .code := by
  have hs := lastStatement?_stands h
  have hcells := lastStatement?_append h
  rw [List.append_assoc] at hcells
  obtain ⟨-, -, hrest⟩ := cells_of_append hcells
  obtain ⟨c, cs, hstatement, -⟩ := hs.head
  rw [List.map_append] at hread
  obtain ⟨-, hglyphs, -⟩ := Lexer.glyphsTo_eq_append hread.symm
  rw [map_char_glyph, map_char_glyph, Option.or_none] at hglyphs
  refine mode_of_getLast? (by rw [hstatement]; exact List.cons_ne_nil _ _) ?_
  rw [← hglyphs, List.getLast?_map]
  cases hd : s.statement.getLast? with
  | none => rfl
  | some d =>
    have hboundary := hs.closed (by simpa using hne) d hd
    have hmem : d ∈ s.statement ++ s.after := List.mem_append_left _ (List.mem_of_getLast? hd)
    rw [hrest] at hmem
    exact (Progress.of_boundary hmem hboundary).1

theorem exists_around {source : List Char} {s : LastStatement}
    (h : lastStatement? (cells source) = some s) (hne : s.expression ≠ []) :
    ∃ l final cut inner, Around source s l final cut inner := by
  have hs := lastStatement?_stands h
  obtain ⟨l, hbefore, hread, hmode⟩ := exists_lexer_at h
  -- the statement up to its last significant character, and what follows that
  obtain ⟨shown, hshown⟩ : ∃ shown, shown = upToLast Cell.isSignificant s.statement := ⟨_, rfl⟩
  obtain ⟨inner, hinner, hinnerNot⟩ := upToLast_append Cell.isSignificant s.statement
  rw [← hshown] at hinner
  have hlast : ∀ g ∈ (shown.map Cell.glyph).getLast?, g.isSignificant = true := by
    intro g hg
    rw [hshown, List.getLast?_map, Option.mem_def, Option.map_eq_some_iff] at hg
    obtain ⟨d, hd, rfl⟩ := hg
    have hsig : d.isSignificant = true := getLast?_upToLast hd
    exact hsig
  have hglyphs : l.glyphsTo ((s.statement ++ s.after).map Cell.char) none =
      shown.map Cell.glyph ++ (inner ++ s.after).map Cell.glyph := by
    rw [← hread, ← List.map_append, hinner, List.append_assoc]
  have hafter : ∀ g ∈ (inner ++ s.after).map Cell.glyph, g.isSignificant = false := by
    intro g hg
    obtain ⟨d, hd, rfl⟩ := List.mem_map.mp hg
    rcases List.mem_append.mp hd with hd | hd
    · exact hinnerNot d hd
    · exact hs.after d hd
  have hexpression : s.expression =
      trimEnd (dropSemicolon ((shown.map Cell.glyph).map Glyph.char)) := by
    rw [LastStatement.expression, ← hshown, map_char_glyph]
  obtain ⟨final, cut, hsplit, hshownText, hreading⟩ :=
    exists_reading (by rw [Lexer.Ready, hmode]; trivial) hglyphs hlast hafter hexpression hne
  have hrest : ((inner ++ s.after).map Cell.glyph).map Glyph.char =
      inner.map Cell.char ++ s.after.map Cell.char := by
    rw [map_char_glyph, List.map_append]
  rw [hrest] at hreading hsplit
  obtain ⟨hbody, hstate⟩ :=
    hreading.same hne (by simp) (by decide : (some ';').any isMark = false)
  have hstatement : s.statement.map Cell.char = s.expression ++ (cut ++ inner.map Cell.char) := by
    rw [hinner, List.map_append, ← List.append_assoc, ← hshownText, map_char_glyph]
  refine ⟨l, final, cut, inner.map Cell.char, ?_⟩
  exact {
    statement := hstatement
    before := hbefore
    mode := hmode
    rest := by rw [hread, hsplit, Lexer.glyphsTo_append, hbody, hreading.state]
    state := hstate
    ends := hreading.ends
    closed := by
      intro hne'
      have hmode' := mode_behind h hread hne'
      have hfinal := hreading.state
      rw [Option.or_none, ← List.append_assoc, List.head?_append] at hfinal
      rwa [hstatement, Lexer.run_append, hfinal] at hmode' }

namespace Around

variable {source : List Char} {s : LastStatement} {l final : Lexer} {cut inner : List Char}

theorem ready (hread : Around source s l final cut inner) : final.Ready (some ';') := by
  rw [← hread.state]
  exact Lexer.ready_run (by rw [Lexer.Ready, hread.mode]; trivial)

theorem drop_expression (hread : Around source s l final cut inner) :
    (s.statement.map Cell.char).drop s.expression.length = cut ++ inner := by
  rw [hread.statement, List.drop_left]

theorem tail_eq (hread : Around source s l final cut inner) :
    s.tail = (cut ++ inner).filter (· = '\n') := by
  rw [LastStatement.tail, hread.drop_expression]

/-- The returned text is read as the script is, up to the end of the expression. -/
theorem glyphs_returned (hread : Around source s l final cut inner) {tail : List Char}
    (htail : tail = s.tail ++ s.after.map Cell.char) :
    glyphs s.returned = s.before.map Cell.glyph ++ ("return ".toList.map (⟨·, .code⟩) ++
      (l.glyphsTo s.expression (some ';') ++ (⟨';', (final.step ';' tail.head?).1⟩ ::
        (final.step ';' tail.head?).2.glyphsFrom tail))) := by
  obtain ⟨next, hbefore, hl⟩ := hread.before
  have htext : s.returned = s.before.map Cell.char ++ ("return ".toList ++
      (s.expression ++ (';' :: tail))) := by
    rw [LastStatement.returned, htail]
    simp only [List.append_assoc]
    rfl
  have hmode := hread.mode
  rw [hl] at hmode
  obtain ⟨hsame, hsameRun⟩ := same_before hmode (by decide : (some 'r').any isMark = false)
  have hword : ∀ d ∈ "return ".toList, isPlain d = true := List.all_eq_true.mp (by decide)
  have hhead : ("return ".toList ++ (s.expression ++ (';' :: tail))).head? = some 'r' := rfl
  rw [glyphs, htext, Lexer.glyphsFrom_append, hhead, hsame, hsameRun, ← hl, ← hbefore,
    Lexer.glyphsFrom_append, (Lexer.plain_code hread.mode hword _).1,
    (Lexer.plain_code hread.mode hword _).2, Lexer.glyphsFrom_append, List.head?_cons,
    hread.state, Lexer.glyphsFrom]

/-- The expression stands within the statement. -/
theorem body_prefix (hread : Around source s l final cut inner) :
    l.glyphsTo s.expression (some ';') <+: s.statement.map Cell.glyph := by
  have hrest := hread.rest
  rw [List.map_append] at hrest
  refine List.prefix_of_prefix_length_le ⟨_, hrest.symm⟩ ⟨s.after.map Cell.glyph, rfl⟩ ?_
  have hlength := congrArg List.length hread.statement
  rw [List.length_map, List.length_append] at hlength
  rw [Lexer.length_glyphsTo, List.length_map]
  omega

end Around

theorem exists_returned {source : List Char} {s : LastStatement}
    (h : lastStatement? (cells source) = some s) (hne : s.expression ≠ []) :
    ∃ before body dropped semicolon trailing,
      Returned source s before body dropped semicolon trailing := by
  obtain ⟨l, final, cut, inner, hread⟩ := exists_around h hne
  have hs := lastStatement?_stands h
  have hcells := lastStatement?_append h
  rw [List.append_assoc] at hcells
  obtain ⟨c, cs, hstatement, hc⟩ := hs.head
  obtain ⟨after, hafter⟩ : ∃ after, after = s.after.map Cell.char := ⟨_, rfl⟩
  obtain ⟨body, hbody⟩ : ∃ body, body = l.glyphsTo s.expression (some ';') := ⟨_, rfl⟩
  obtain ⟨dropped, hdropped⟩ : ∃ dropped, dropped = final.glyphsTo (cut ++ (inner ++ after)) none :=
    ⟨_, rfl⟩
  have hrest : (s.statement ++ s.after).map Cell.glyph = body ++ dropped := by
    rw [hread.rest, hbody, hdropped, hafter]
  have hbodyNe : body ≠ [] := by
    rw [hbody, ← List.length_pos_iff, Lexer.length_glyphsTo, List.length_pos_iff]
    exact hne
  obtain ⟨first, more, hfirst⟩ := List.exists_cons_of_ne_nil hbodyNe
  refine ⟨s.before.map Cell.glyph, body, dropped, ⟨';', (final.step ';' (s.tail ++ after).head?).1⟩,
    (final.step ';' (s.tail ++ after).head?).2.glyphsFrom (s.tail ++ after), ?_⟩
  exact {
    source := by rw [(cells_of_append hcells).1, hrest]
    returned := by
      rw [hread.glyphs_returned (by rw [← hafter]), hbody]
      rfl
    beforeEq := rfl
    head := by
      refine ⟨first, more, hfirst, ?_⟩
      rw [hstatement, hfirst] at hrest
      rw [← (List.cons.inj hrest).1]
      exact hc
    begins := by
      rw [← hrest]
      exact hs.isFresh hcells
    within := by
      intro before more g hsplit hne'
      rw [List.map_append] at hrest
      obtain ⟨behind, hbehind⟩ := hread.body_prefix
      rw [← hbody] at hbehind
      rw [← hbehind, List.append_assoc, List.append_cancel_left_eq] at hrest
      rw [hsplit, List.append_assoc, List.cons_append] at hbehind
      rw [← hrest, ← List.append_assoc]
      exact hs.not_isFresh hcells hbehind.symm hne'
    char := rfl
    trailingNot := by
      rw [hafter]
      exact trailing_not hread.ends hread.ready hread.tail_eq hread.closed
    slight := by
      rw [hdropped, hafter]
      exact hread.ends.slight }

end SnippetRunner.Script
