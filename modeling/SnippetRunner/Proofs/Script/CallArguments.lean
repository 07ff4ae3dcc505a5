import SnippetRunner.Proofs.Script.CapturedLine
import SnippetRunner.Proofs.Source.LongCall

/-
  The arguments of a capture call. An expression is put into the call as it stands, so a comma
  outside its brackets stands between two arguments. `capture_call_arguments` gives the arguments
  that the call of a captured line has, and says where a semicolon can come into it.
-/
namespace SnippetRunner.Script

open SnippetRunner.Text SnippetRunner.Source

/-! ## Reading arguments -/

/-- How many brackets are open behind `g`, if `depth` are in front of it. -/
def depthBehind (depth : Nat) (g : Glyph) : Nat :=
  if g.isCode && isOpening g.char then depth + 1
  else if g.isCode && isClosing g.char then depth - 1
  else depth

/-- The texts between the commas of an argument list, given what follows the parenthesis that
opens it, up to the bracket that closes it. `depth` brackets are open inside the list. -/
def argumentsFrom : Nat → List Glyph → Option (List (List Char))
  | _, [] => none
  | depth, g :: rest =>
    if g.isCode && isClosing g.char && depth = 0 then some [[]]
    else if g.isCode && g.char = ',' && depth = 0 then (argumentsFrom 0 rest).map ([] :: ·)
    else (argumentsFrom (depthBehind depth g) rest).map (List.modifyHead (g.char :: ·))

/-- A comma in code, outside all brackets. -/
def isSeparator (c : Cell) : Bool := c.isCode && c.char = ',' && c.depth = 0

/-- The walk counts brackets as the reader does. -/
theorem depth_step (p : Progress) (g : Glyph) :
    (p.step g).nesting.depth = depthBehind p.nesting.depth g :=
  p.depth_step g

theorem depth_run (p : Progress) (gs : List Glyph) :
    (p.run gs).nesting.depth = gs.foldl depthBehind p.nesting.depth := by
  induction gs generalizing p with
  | nil => rfl
  | cons g gs ih => rw [Progress.run_cons, ih, depth_step, List.foldl_cons]

/-- What stands before a comma outside all brackets is read as its cells are split. -/
theorem argumentsFrom_append {p : Progress} {gs following rest : List Glyph}
    (hclose : ∀ c ∈ p.cellsTo gs following, c.isCode = true → isClosing c.char = true →
      c.depth ≠ 0)
    (houter : (p.run gs).nesting.depth = 0) :
    argumentsFrom p.nesting.depth (gs ++ ⟨',', .code⟩ :: rest) =
      (argumentsFrom 0 rest).map
        ((splitBetween isSeparator (p.cellsTo gs following)).map (List.map Cell.char) ++ ·) := by
  induction gs generalizing p with
  | nil =>
    rw [List.nil_append, show p.nesting.depth = 0 from houter]
    rfl
  | cons g gs ih =>
    have hcell : (p.cellAt g (gs ++ following)).isCode = g.isCode ∧
        (p.cellAt g (gs ++ following)).char = g.char ∧
        (p.cellAt g (gs ++ following)).depth = p.nesting.depth := ⟨rfl, rfl, rfl⟩
    rw [Progress.cellsTo] at hclose ⊢
    have hrest := ih (fun c hc => hclose c (List.mem_cons_of_mem _ hc)) houter
    rw [depth_step] at hrest
    rw [List.cons_append]
    cases hseparator : isSeparator (p.cellAt g (gs ++ following)) with
    | true =>
      have hseparates := hseparator
      rw [isSeparator, Bool.and_eq_true, Bool.and_eq_true, decide_eq_true_eq, decide_eq_true_eq,
        hcell.1, hcell.2.1, hcell.2.2] at hseparates
      obtain ⟨⟨hcode, hchar⟩, hdepth⟩ := hseparates
      have hopening : isOpening ',' = false := by decide
      have hclosing : isClosing ',' = false := by decide
      have hbehind : depthBehind p.nesting.depth g = 0 := by
        simp [depthBehind, hchar, hopening, hclosing, hdepth]
      rw [hbehind] at hrest
      rw [hdepth, argumentsFrom, hcode, hchar, hclosing, splitBetween, if_pos hseparator, hrest]
      simp [Function.comp_def]
    | false =>
      have hcomma : (g.isCode && g.char = ',' && p.nesting.depth = 0) = false := hseparator
      have hends : (g.isCode && isClosing g.char && p.nesting.depth = 0) = false := by
        by_contra hcloses
        simp only [Bool.not_eq_false, Bool.and_eq_true, decide_eq_true_eq] at hcloses
        exact hclose _ (List.mem_cons_self ..) hcloses.1.1 hcloses.1.2 hcloses.2
      rw [argumentsFrom, hends, hcomma, if_neg Bool.false_ne_true, if_neg Bool.false_ne_true, hrest,
        splitBetween_cons_of_not hseparator]
      obtain ⟨piece, pieces, hpieces⟩ := List.exists_cons_of_ne_nil
        (splitBetween_ne_nil isSeparator ((p.step g).cellsTo gs following))
      rw [hpieces]
      simp [Function.comp_def, hcell.2.1]

/-- A last argument that has no bracket and no comma. -/
theorem argumentsFrom_last {s : List Char} (rest : List Glyph)
    (h : ∀ c ∈ s, isOpening c = false ∧ isClosing c = false ∧ c ≠ ',') :
    argumentsFrom 0 (s.map (⟨·, .code⟩) ++ ⟨')', .code⟩ :: rest) = some [s] := by
  induction s with
  | nil => rfl
  | cons c s ih =>
    obtain ⟨hopening, hclosing, hcomma⟩ := h c (List.mem_cons_self ..)
    have hbehind : depthBehind 0 ⟨c, .code⟩ = 0 := by simp [depthBehind, hopening, hclosing]
    rw [List.map_cons, List.cons_append, argumentsFrom, if_neg (by simp [hclosing]),
      if_neg (by simp [hcomma]), hbehind, ih fun d hd => h d (List.mem_cons_of_mem _ hd)]
    rfl

/-! ## The expression in its line -/

/-- Characters of a kind to which no bracket belongs. -/
theorem not_bracket_of {p : Char → Bool}
    (hp : ['(', '[', '\x7b', ')', ']', '\x7d'].all (fun b => !p b) = true) {c : Char}
    (hc : p c = true) : isOpening c = false ∧ isClosing c = false := by
  have hne : ∀ b ∈ ['(', '[', '\x7b', ')', ']', '\x7d'], c ≠ b := by
    rintro b hb rfl
    have hnot := List.all_eq_true.mp hp c hb
    rw [hc] at hnot
    cases hnot
  simp only [List.mem_cons, List.not_mem_nil, or_false, forall_eq_or_imp, forall_eq] at hne
  simp [isOpening, isClosing, hne]

/-- Blanks and semicolons open and close no brackets. -/
theorem depth_run_of_spare {p : Progress} {gs : List Glyph}
    (h : ∀ g ∈ gs, isBlank g.char = true ∨ g.char = ';') :
    (p.run gs).nesting.depth = p.nesting.depth := by
  induction gs generalizing p with
  | nil => rfl
  | cons g gs ih =>
    obtain ⟨hopening, hclosing⟩ : isOpening g.char = false ∧ isClosing g.char = false := by
      rcases h g (List.mem_cons_self ..) with hblank | hchar
      · exact not_bracket_of (by decide) hblank
      · rw [hchar]
        decide
    rw [Progress.run_cons, ih fun d hd => h d (List.mem_cons_of_mem _ hd), depth_step,
      depthBehind, hopening, hclosing, Bool.and_false, if_neg Bool.false_ne_true,
      if_neg Bool.false_ne_true]

namespace Captures

variable {gs : List Glyph} {parts : Parts gs} {p : Progress} {fromCode : Bool} {f : List Glyph}

theorem depth_indent (h : Captures parts p fromCode f) :
    (p.run parts.indent).nesting.depth = 0 := by
  rw [Nesting.depth, Progress.run_opened_of_not p parts.indent_not]
  exact List.length_eq_zero_iff.mpr (List.isEmpty_iff.mp h.outer)

/-- No bracket is open behind the expression of a captured line. -/
theorem depth_body (h : Captures parts p fromCode f) :
    ((p.run parts.indent).run parts.body).nesting.depth = 0 := by
  obtain ⟨dropped, hstatement, -, hspare⟩ := parts.exists_spare
  have houter : (p.run gs).nesting.depth = 0 :=
    List.length_eq_zero_iff.mpr (List.isEmpty_iff.mp h.outerAfter)
  rw [parts.join_body hstatement, Progress.run_append, Progress.run_append, Progress.run_append,
    Nesting.depth, Progress.run_opened_of_not _ parts.rest_not, ← Nesting.depth,
    depth_run_of_spare hspare] at houter
  exact houter

/-- A semicolon outside all brackets is the first character of the expression, and stands behind
a call over several lines. -/
theorem semicolon_opens (h : Captures parts p fromCode f) {first more : List Glyph} {g : Glyph}
    (hbody : parts.body = first ++ g :: more) (hcode : g.isCode = true) (hchar : g.char = ';')
    (hdepth : ((p.run parts.indent).run first).nesting.depth = 0) :
    first = [] ∧ (p.run parts.indent).nesting.afterMultilineCall = true := by
  obtain ⟨dropped, hstatement, hexpression⟩ := parts.exists_body
  rw [hbody, List.append_assoc, List.cons_append] at hstatement
  -- a semicolon at the end of the statement is cut off
  have hne : more ++ dropped ≠ [] := by
    intro hnil
    obtain ⟨blanks, semicolon, hsplit, -, -, hsemi⟩ :=
      expression_append (parts.statement.map Glyph.char)
    have hlength := congrArg List.length hsplit
    rw [hsemi (by rw [hstatement, hnil, List.getLast?_map, List.getLast?_concat, Option.map_some,
      hchar]), ← Parts.expression, ← hexpression, hbody, hstatement, hnil,
      (List.append_eq_nil_iff.mp hnil).1] at hlength
    simp at hlength
  have hends : ((p.run parts.indent).run first).endsAt g = false := by
    have hsingle := h.single
    rw [hstatement, List.dropLast_append_of_ne_nil (List.cons_ne_nil _ _),
      List.dropLast_cons_of_ne_nil hne, Progress.endsWithin_append, Bool.or_eq_false_iff,
      Progress.endsWithin, Bool.or_eq_false_iff] at hsingle
    exact hsingle.2.1
  have hcall : ((p.run parts.indent).run first).nesting.afterMultilineCall = true := by
    have houter : ((p.run parts.indent).run first).isOuter = true :=
      List.isEmpty_iff.mpr (List.length_eq_zero_iff.mp hdepth)
    rw [Progress.endsAt, hcode, houter, hchar] at hends
    simpa using hends
  cases first with
  | nil => exact ⟨rfl, hcall⟩
  | cons d first =>
    -- the line begins outside all brackets, so every call behind its first character is its own
    obtain ⟨head, tail, hhead, hsignificant, -⟩ := h.head
    obtain rfl : d = head := by
      rw [hstatement] at hhead
      exact (List.cons.inj hhead).1
    have hfeedless : ∀ a ∈ parts.indent ++ d :: first, a.char ≠ '\n' := by
      intro a ha
      refine parts.feedless a ?_
      rw [hstatement]
      rcases List.mem_append.mp ha with ha | ha
      · exact List.mem_append_left _ ha
      · exact List.mem_append_right _ (List.mem_append_left _ (List.mem_append_left _ ha))
    have hnone := Progress.not_afterMultilineCall h.outer hfeedless ⟨d, by simp, hsignificant⟩
    rw [Progress.run_append, hcall] at hnone
    cases hnone

end Captures

/-! ## The call in its script -/

/-- With `before` in front of it, `body` ends in code and closes no bracket that it has not
opened. -/
structure IsComplete (source : List Char) (before body : List Cell) : Prop where
  mode : modeAt source (before ++ body).length = .code
  brackets : ∀ c ∈ body, c.isCode = true → isClosing c.char = true → c.depth ≠ 0

/-- Line `k` of a script is a call of the capture function that has the given arguments. -/
def CallsWith (text : List Char) (k : Nat) (arguments : List (List Char)) : Prop :=
  ∃ indent inside, (glyphLines text)[k]? =
      some (indent ++ (callStart.map (⟨·, .code⟩) ++ inside)) ∧
    (∀ g ∈ indent, isAsciiBlank g.char = true) ∧ argumentsFrom 0 inside = some arguments

/-- How the expression `body` of line `k` stands in its script and in the call that reports it. -/
structure InCall (source : List Char) (k : Nat) (before body after : List Cell) : Prop where
  join : cells source = before ++ (body ++ after)
  number : newlines (before.map Cell.char) = k
  feedless : ∀ c ∈ body, c.char ≠ '\n'
  semicolon : ∀ first c rest, body = first ++ c :: rest → c.isCode = true → c.char = ';' →
    c.depth = 0 → first = [] ∧ EndsLongCall before
  arguments : IsComplete source before body → CallsWith (instrument source).text k
    ((splitBetween isSeparator body).map (List.map Cell.char) ++ [' ' :: (Nat.repr (k + 1)).toList])

/-- The end of a call, behind an expression that ends in code. -/
theorem argumentsFrom_callEnd {l : Lexer} (hmode : l.mode = .code) (number : Nat)
    (more : List Char) : ∃ rest,
      l.glyphsTo (callEnd number ++ more) none = ⟨',', .code⟩ :: rest ∧
        argumentsFrom 0 rest = some [' ' :: (Nat.repr number).toList] := by
  have hplain := isPlain_callEnd number
  refine ⟨_, ?_, argumentsFrom_last ((l.glyphsTo more none)) ?_⟩
  · rw [Lexer.glyphsTo_append, (Lexer.plain_code hmode hplain _).1,
      (Lexer.plain_code hmode hplain _).2, callEnd]
    simp
  · have hdigits : ∀ c ∈ (Nat.repr number).toList, c.isDigit = true := fun c hc =>
      Nat.isDigit_of_mem_toDigits (b := 10) (n := number) (by decide) (by decide)
        (by simpa [Nat.repr] using hc)
    intro c hc
    rcases List.mem_cons.mp hc with rfl | hc
    · decide
    · obtain ⟨hopening, hclosing⟩ := not_bracket_of (by decide) (hdigits c hc)
      refine ⟨hopening, hclosing, ?_⟩
      rintro rfl
      exact absurd (hdigits ',' hc) (by decide)

theorem modeAt_append (a b : List Char) :
    modeAt (a ++ b) a.length = (Lexer.initial.run a b.head?).mode := by
  rw [modeAt, List.take_left' rfl, List.drop_left' rfl]

namespace CapturedLine

variable {source : List Char} {k : Nat} (c : CapturedLine .initial .initial source k)

/-- Where the expression ends, the lexer is in the state in which the end of the call is read. -/
theorem modeAt_body {final : Lexer} {dropped rest : List Char}
    (hread : LineReading c.parts c.lexer final c.line dropped rest)
    (hline : c.line = c.parts.indent.map Glyph.char ++ (c.parts.expression ++ (dropped ++ rest))) :
    modeAt source (c.before.length + (c.parts.indent.length + c.parts.expression.length)) =
      final.mode := by
  obtain ⟨text, htext⟩ : ∃ text, text = c.parts.indent.map Glyph.char ++ c.parts.expression :=
    ⟨_, rfl⟩
  obtain ⟨next, hnext⟩ : ∃ next, next = (dropped ++ rest ++ c.rest).head? := ⟨_, rfl⟩
  have hsource : source = (c.before ++ text) ++ (dropped ++ rest ++ c.rest) := by
    conv_lhs => rw [c.join, hline]
    rw [htext]
    simp only [List.append_assoc]
  have hrun (next : Option Char) : c.lexer.run text next = c.lexer.run c.parts.expression next := by
    rw [htext, Lexer.run_append, (Lexer.plain_code c.mode c.parts.isPlain_indent _).2]
  have hlength : c.before.length + (c.parts.indent.length + c.parts.expression.length) =
      (c.before ++ text).length := by
    rw [htext]
    simp
  have hmode : modeAt source (c.before ++ text).length = (c.lexer.run text next).mode := by
    rw [(congrArg (modeAt · _) hsource).trans (modeAt_append _ _), Lexer.run_append,
      (glyphsTo_of_feed _ c.ended _).2, ← c.lexer_eq, hnext]
  rw [hlength, hmode, hrun, hnext, ← hread.reading.state, List.head?_append]
  cases hhead : (dropped ++ rest).head? with
  | some d => rfl
  | none =>
    -- nothing stands between the expression and the end of the line
    have hnil := List.head?_eq_none_iff.mp hhead
    rw [hnil, List.append_nil, ← htext] at hline
    have hend := c.first.run (l := c.lexer) none
    rw [hline, Option.or_none, hrun, hrun] at hend
    rw [Option.none_or, hend]
    rfl

/-- If the lexer is in code behind the expression, and the expression closes no bracket that it has
not opened, the wrapped line calls with the parts of the expression and the number of the line. -/
theorem callsWith {final : Lexer} {dropped rest : List Char} {following : List Glyph}
    (hwrapped : (glyphLines (instrument source).text)[k]? =
      some (c.lexer.glyphsTo (wrapped c.parts (k + 1)) none))
    (hread : LineReading c.parts c.lexer final c.line dropped rest) (hmode : final.mode = .code)
    (hbrackets : ∀ d ∈ (c.place.run c.parts.indent).cellsTo c.parts.body following,
      d.isCode = true → isClosing d.char = true → d.depth ≠ 0) :
    CallsWith (instrument source).text k
      ((splitBetween isSeparator ((c.place.run c.parts.indent).cellsTo c.parts.body following)).map
        (List.map Cell.char) ++ [' ' :: (Nat.repr (k + 1)).toList]) := by
  obtain ⟨more, hmore, hnumber⟩ := argumentsFrom_callEnd hmode (k + 1)
    ([';'] ++ c.parts.terminator.map Glyph.char)
  refine ⟨c.parts.indent, c.parts.body ++ ⟨',', .code⟩ :: more, ?_, c.parts.indentBlank, ?_⟩
  · rw [hwrapped, hread.glyphsTo_wrapped c.mode c.captures.nonempty, hmore]
  · rw [← c.captures.depth_indent, argumentsFrom_append hbrackets c.captures.depth_body, hnumber,
      Option.map_some]

/-- The glyphs before the expression of a captured line. -/
def lead : List Glyph := Lexer.initial.glyphsTo c.before none ++ c.parts.indent

theorem run_lead : Progress.initial.run c.lead = c.place.run c.parts.indent := by
  rw [lead, Progress.run_append, c.place_eq]

theorem length_lead : c.lead.length = c.before.length + c.parts.indent.length := by
  rw [lead, List.length_append, Lexer.length_glyphsTo]

theorem newlines_lead : newlines (c.lead.map Glyph.char) = k := by
  rw [lead, List.map_append, Lexer.map_char_glyphsTo, newlines, List.count_append, ← newlines,
    ← newlines, c.number, Spot.newlines_eq_zero_of_feedless c.parts.indent_feedless, Nat.add_zero]

theorem exists_glyphs : ∃ tail, glyphs source = c.lead ++ (c.parts.body ++ tail) := by
  obtain ⟨dropped, hstatement, -⟩ := c.parts.exists_body
  obtain ⟨following, hfollowing⟩ : ∃ following, following = (c.lexer.run c.line none).glyphsFrom
    c.rest := ⟨_, rfl⟩
  refine ⟨dropped ++ (c.parts.after ++ (c.parts.terminator ++ following)), ?_⟩
  calc glyphs source
      = Lexer.initial.glyphsTo c.before none ++ (c.lexer.glyphsTo c.line none ++ following) := by
        rw [hfollowing]
        exact c.glyphs_eq
    _ = Lexer.initial.glyphsTo c.before none ++ ((c.parts.indent ++
          (c.parts.statement ++ c.parts.after) ++ c.parts.terminator) ++ following) :=
        congrArg (fun gs => Lexer.initial.glyphsTo c.before none ++ (gs ++ following))
          c.parts.join
    _ = c.lead ++ (c.parts.body ++
          (dropped ++ (c.parts.after ++ (c.parts.terminator ++ following)))) := by
        rw [lead, hstatement]
        simp only [List.append_assoc]

theorem body_feedless : ∀ g ∈ c.parts.body, g.char ≠ '\n' := by
  intro g hg
  obtain ⟨dropped, hstatement, -⟩ := c.parts.exists_body
  refine c.parts.feedless g (List.mem_append_right _ (List.mem_append_left _ ?_))
  rw [hstatement]
  exact List.mem_append_left _ hg

/-- The expression of a captured line with the text before and after it, as cells. -/
theorem exists_inCall (hwrapped : (glyphLines (instrument source).text)[k]? =
      some (c.lexer.glyphsTo (wrapped c.parts (k + 1)) none)) :
    ∃ before body after, body.map Cell.char = c.parts.expression ∧
      InCall source k before body after := by
  obtain ⟨-, -, hbody⟩ := c.parts.exists_body
  obtain ⟨tail, hglyphs⟩ := c.exists_glyphs
  have hcells : cells source = Progress.initial.cellsTo c.lead (c.parts.body ++ tail) ++
      ((c.place.run c.parts.indent).cellsTo c.parts.body tail ++
        ((c.place.run c.parts.indent).run c.parts.body).cellsTo tail []) := by
    rw [cells_eq_cellsTo, hglyphs, Progress.cellsTo_append, c.run_lead, Progress.cellsTo_append,
      List.append_nil, List.append_nil]
  exact ⟨_, _, _, by rw [Progress.map_char_cellsTo, hbody], {
    join := hcells
    number := by rw [Progress.map_char_cellsTo, c.newlines_lead]
    feedless := by
      intro d hd
      refine c.body_feedless d.glyph ?_
      rw [← Progress.map_glyph_cellsTo _ c.parts.body tail]
      exact List.mem_map_of_mem hd
    semicolon := by
      intro first d rest hsplit hcode hchar hdepth
      obtain ⟨hsplitGlyphs, hfirst, hbehind⟩ := Progress.cellsTo_eq_append hsplit
      rw [List.map_cons, Progress.cellsTo, List.cons.injEq] at hbehind
      rw [hbehind.1] at hdepth
      obtain ⟨hnil, hcall⟩ := c.captures.semicolon_opens hsplitGlyphs hcode hchar hdepth
      rw [hfirst, hnil, endsLongCall_cellsTo, c.run_lead]
      exact ⟨rfl, hcall⟩
    arguments := by
      intro hcomplete
      obtain ⟨final, spare, rest, hread, hline⟩ :=
        exists_lineReading_join c.parts rfl c.mode c.captures.nonempty
      have hlength : c.parts.body.length = c.parts.expression.length := by
        rw [← hbody, List.length_map]
      have hmode := hcomplete.mode
      rw [List.length_append, Progress.length_cellsTo, Progress.length_cellsTo, c.length_lead,
        hlength, Nat.add_assoc, c.modeAt_body hread hline] at hmode
      exact c.callsWith hwrapped hread hmode hcomplete.brackets }⟩

end CapturedLine

/-- The call of a captured expression. A semicolon of the code comes into it outside all brackets
only as its first character, behind a call over several lines. If the expression is complete, the
call has the arguments between the commas of its code outside all brackets, and the number of the
line behind them; so the whole expression is one argument exactly if it has no such comma. -/
theorem capture_call_arguments (source : List Char) :
    ∀ entry ∈ (instrument source).captures, ∃ k before body after,
      entry = (k + 1, body.map Cell.char) ∧ InCall source k before body after ∧
        ((splitBetween isSeparator body).map (List.map Cell.char) = [entry.2] ↔
          ∀ c ∈ body, isSeparator c = false) := by
  rintro ⟨number, e⟩ hentry
  obtain ⟨k, -, -, rfl, -⟩ := mem_captures_iff.mp hentry
  have hline := mem_captures_iff_capturesLine.mp ⟨e, hentry⟩
  rw [← walk_initial] at hline
  obtain ⟨c, hwrapped⟩ := exists_capturedLine 1 (fun _ => rfl) hline
  rw [← instrument_text, Nat.add_comm] at hwrapped
  obtain ⟨before, body, after, hbody, hcall⟩ := c.exists_inCall hwrapped
  obtain rfl := c.expression_of_mem hentry
  refine ⟨k, before, body, after, by rw [hbody], hcall, ?_, fun hnone => ?_⟩
  · intro hone
    have hlength := congrArg List.length hone
    rw [List.length_map, length_splitBetween, List.length_singleton] at hlength
    have hcount : body.countP isSeparator = 0 := by omega
    simpa using List.countP_eq_zero.mp hcount
  · rw [splitBetween_of_unmarked hnone, List.map_singleton, hbody]

theorem call_on_second_line : ∃ k before body after,
    (2, "f(a, b), c".toList) = (k + 1, body.map Cell.char) ∧
      InCall "x;\n  f(a, b), c;".toList k before body after ∧
      ((splitBetween isSeparator body).map (List.map Cell.char) = ["f(a, b), c".toList] ↔
        ∀ c ∈ body, isSeparator c = false) :=
  capture_call_arguments "x;\n  f(a, b), c;".toList (2, "f(a, b), c".toList) (by decide +kernel)

/-- A comma outside all brackets makes three arguments of two, so the second operand stands where
the line number is expected; and a semicolon behind a call over several lines comes into the call
of the next line. -/
theorem comma_and_semicolon_captured :
    instrument "a, b;".toList =
        ⟨"__scratchpad_capture(a, b, 1);".toList, [(1, "a, b".toList)]⟩ ∧
      CallsWith (instrument "a, b;".toList).text 0 ["a".toList, " b".toList, " 1".toList] ∧
      ((cells "a, b;".toList)[1]?.map fun c => (c.char, c.isCode, c.depth)) =
        some (',', true, 0) ∧
      (instrument "f(\n)\n;[1]".toList).captures = [(3, ";[1]".toList)] ∧
      ((cells "f(\n)\n;[1]".toList)[5]?.map fun c => (c.char, c.isCode, c.depth)) =
        some (';', true, 0) := by
  refine ⟨by decide +kernel, ?_, by decide +kernel, by decide +kernel, by decide +kernel⟩
  exact ⟨[], "a, b, 1);".toList.map (⟨·, .code⟩), by decide +kernel, by simp, by decide +kernel⟩

end SnippetRunner.Script
