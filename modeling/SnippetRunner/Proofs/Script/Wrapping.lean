import SnippetRunner.Proofs.Script.Parts
import SnippetRunner.Proofs.Script.LineAttribution
import SnippetRunner.Proofs.Source.Ending
import SnippetRunner.Proofs.Source.Detached

/-
  What wrapping a line in a capture call does to the text around it. The lexer reads the
  expression as before and is in the same state where the next line begins; the statement of the
  wrapped line is the call, and ends a statement only if the line did.
-/
namespace SnippetRunner.Script

open SnippetRunner.Text SnippetRunner.Source

namespace Parts

variable {gs : List Glyph} (parts : Parts gs)

theorem terminator_not : ∀ g ∈ parts.terminator, g.isSignificant = false := by
  have hblank {g : Glyph} := @Glyph.not_significant_of_isAsciiBlank g
  intro g hg
  rcases parts.terminated with ht | ⟨feed, hfeed, ⟨ht, -⟩ | ⟨ret, hret, ht⟩⟩
  · rw [ht] at hg
    cases hg
  · rw [ht, List.mem_singleton] at hg
    exact hblank (by rw [hg, hfeed]; rfl)
  · rw [ht] at hg
    simp only [List.mem_cons, List.not_mem_nil, or_false] at hg
    rcases hg with rfl | rfl
    · exact hblank (by rw [hret]; rfl)
    · exact hblank (by rw [hfeed]; rfl)

/-- Nothing significant follows the statement. -/
theorem rest_not : ∀ g ∈ parts.after ++ parts.terminator, g.isSignificant = false := by
  intro g hg
  rcases List.mem_append.mp hg with hg | hg
  · exact parts.afterNot g hg
  · exact parts.terminator_not g hg

/-- The statement reaches every significant character of the line. -/
theorem reaches {before rest : List Glyph} {g : Glyph} (h : gs = before ++ g :: rest)
    (hg : g.isSignificant = true) : ∃ more,
      parts.indent ++ parts.statement = before ++ g :: more ∧
        rest = more ++ (parts.after ++ parts.terminator) := by
  have hsplit := parts.join_statement.symm.trans h
  rw [← List.append_assoc] at hsplit
  rcases append_eq_append_cons hsplit with ⟨more, -, hrest⟩ | hmore
  · have hnot := parts.rest_not g (by rw [hrest]; simp)
    rw [hg] at hnot
    cases hnot
  · exact hmore

end Parts

/-- A blank of the indentation means nothing to the lexer. -/
theorem isPlain_of_isBlank {c : Char} (h : isBlank c = true) (hc : c ≠ '\n') :
    isPlain c = true := by
  rw [isPlain, Bool.not_eq_true', List.contains_eq_mem, decide_eq_false_iff_not]
  simp only [List.mem_cons, List.not_mem_nil, or_false]
  rintro (rfl | rfl | rfl | rfl | rfl | rfl | rfl | rfl | rfl | rfl)
  all_goals first | exact hc rfl | exact absurd h (by decide)

theorem Parts.isPlain_indent {gs : List Glyph} (parts : Parts gs) :
    ∀ c ∈ parts.indent.map Glyph.char, isPlain c = true := by
  intro c hc
  obtain ⟨g, hg, rfl⟩ := List.mem_map.mp hc
  exact isPlain_of_isBlank (isBlank_of_isAsciiBlank (parts.indentBlank g hg))
    (parts.indent_feedless g hg)

/-! ## Reading an expression -/

/-- How a text is read that begins with a statement: in state `final` at the end of the
statement's expression, where `dropped` follows in the statement and `rest` behind it. -/
structure Reading (statement : List Glyph) (l final : Lexer) (expression dropped rest : List Char)
    (next : Option Char) : Prop where
  glyphs : statement = l.glyphsTo expression ((dropped ++ rest).head?.or next) ++
    final.glyphsTo dropped (rest.head?.or next)
  state : l.run expression ((dropped ++ rest).head?.or next) = final
  ends : final.Ends dropped rest next
  semicolon : statement.getLast?.map Glyph.char = some ';' → dropped ≠ []

theorem exists_reading {l : Lexer} {text : List Char} {next : Option Char}
    {statement after : List Glyph} {expression : List Char}
    (hready : l.Ready (text.head?.or next)) (hglyphs : l.glyphsTo text next = statement ++ after)
    (hlast : ∀ g ∈ statement.getLast?, g.isSignificant = true)
    (hafter : ∀ g ∈ after, g.isSignificant = false)
    (he : expression = trimEnd (dropSemicolon (statement.map Glyph.char))) (hne : expression ≠ []) :
    ∃ final dropped, text = expression ++ (dropped ++ after.map Glyph.char) ∧
      statement.map Glyph.char = expression ++ dropped ∧
      Reading statement l final expression dropped (after.map Glyph.char) next := by
  obtain ⟨blanks, semicolon, hsplit, hblanks, hsemicolon, hsemi⟩ :=
    expression_append (statement.map Glyph.char)
  rw [← he] at hsplit
  obtain ⟨dropped, hdropped⟩ : ∃ dropped, dropped = blanks ++ semicolon := ⟨_, rfl⟩
  rw [← hdropped] at hsplit
  -- the text is read part by part: the expression, what is cut off it, and what follows
  obtain ⟨htext, hstatement, hafterGlyphs⟩ := Lexer.glyphsTo_eq_append hglyphs
  obtain ⟨rest, hrest⟩ : ∃ rest, rest = after.map Glyph.char := ⟨_, rfl⟩
  rw [hsplit, ← hrest] at htext hstatement hafterGlyphs
  rw [Lexer.glyphsTo_append, ← Lexer.head?_append_or] at hstatement
  rw [Lexer.run_append, ← Lexer.head?_append_or] at hafterGlyphs
  rw [List.append_assoc] at htext
  obtain ⟨final, hfinal⟩ : ∃ final, final = l.run expression ((dropped ++ rest).head?.or next) :=
    ⟨_, rfl⟩
  rw [← hfinal] at hstatement hafterGlyphs
  refine ⟨final, dropped, by rw [← hrest]; exact htext, hsplit, ?_⟩
  rw [← hrest]
  exact {
    glyphs := hstatement
    state := hfinal.symm
    ends := {
      ready := by
        rw [hfinal]
        refine Lexer.ready_run ?_
        rwa [← Lexer.head?_append_or, ← htext]
      blanks := by
        intro c hc
        rw [hdropped] at hc
        rcases List.mem_append.mp hc with hc | hc
        · exact Or.inl (hblanks c hc)
        · rcases hsemicolon with rfl | rfl
          · cases hc
          · exact Or.inr (List.mem_singleton.mp hc)
      last := by
        intro g hg
        refine hlast g ?_
        rw [hstatement, List.getLast?_append, Option.mem_def.mp hg]
        rfl
      settled := by
        intro hnil
        rw [hnil, Lexer.glyphsTo, List.append_nil, List.nil_append] at hstatement
        rw [hfinal, hnil, List.nil_append]
        rw [hstatement] at hlast
        exact Lexer.isSettled_run hne hlast
      trailing := by
        rwa [← hafterGlyphs] }
    semicolon := by
      intro h
      rw [← List.getLast?_map] at h
      rw [hdropped, hsemi h]
      simp }

/-- An expression is read the same way before anything that makes up no mark with its end. -/
theorem Reading.same {statement : List Glyph} {l final : Lexer}
    {expression dropped rest : List Char} {next next' : Option Char}
    (h : Reading statement l final expression dropped rest next) (hne : expression ≠ [])
    (hnext : next ≠ some '{') (hnext' : next'.any isMark = false) :
    l.glyphsTo expression ((dropped ++ rest).head?.or next) = l.glyphsTo expression next' ∧
      l.run expression next' = final := by
  obtain ⟨init, c, rfl⟩ := expression.eq_nil_or_concat'.resolve_left hne
  have hends := h.ends
  rw [← h.state] at hends
  obtain ⟨hglyphs, hrun⟩ := hends.same_reading hnext hnext'
  exact ⟨hglyphs, hrun.symm.trans h.state⟩

/-- How a line that begins in code is read. -/
structure LineReading {gs : List Glyph} (parts : Parts gs) (l final : Lexer)
    (line dropped rest : List Char) : Prop where
  indent : parts.indent = (parts.indent.map Glyph.char).map (⟨·, .code⟩)
  reading : Reading parts.statement l final parts.expression dropped rest none
  run : l.run line none = final.run (dropped ++ rest) none
  feedless : '\n' ∉ dropped

theorem exists_lineReading_join {gs : List Glyph} {l : Lexer} {line : List Char} (parts : Parts gs)
    (hgs : gs = l.glyphsTo line none) (hmode : l.mode = .code) (hne : parts.expression ≠ []) :
    ∃ final dropped rest, LineReading parts l final line dropped rest ∧
      line = parts.indent.map Glyph.char ++ (parts.expression ++ (dropped ++ rest)) := by
  have hread (next : Option Char) := Lexer.plain_code hmode parts.isPlain_indent next
  obtain ⟨hline, hindent, hrest⟩ :=
    Lexer.glyphsTo_eq_append (hgs.symm.trans parts.join_statement)
  rw [(hread _).1] at hindent
  rw [(hread _).2] at hrest
  obtain ⟨final, dropped, hsplit, hstatement, hreading⟩ := exists_reading
    (by rw [Lexer.Ready, hmode]; trivial) hrest.symm parts.lastSignificant parts.rest_not rfl hne
  refine ⟨final, dropped, _, ⟨hindent, hreading, ?_, ?_⟩,
    by rw [hline, hsplit, Parts.expression]⟩
  · rw [hline, Lexer.run_append, Option.or_none, (hread _).2, hsplit, Lexer.run_append]
    exact congrArg (Lexer.run · _ none) hreading.state
  · intro hmem
    have hmem : '\n' ∈ parts.statement.map Glyph.char := by
      rw [hstatement]
      exact List.mem_append_right _ hmem
    obtain ⟨g, hg, e⟩ := List.mem_map.mp hmem
    exact parts.feedless g (List.mem_append_right _ (List.mem_append_left _ hg)) e

theorem exists_lineReading {gs : List Glyph} {l : Lexer} {line : List Char} (parts : Parts gs)
    (hgs : gs = l.glyphsTo line none) (hmode : l.mode = .code) (hne : parts.expression ≠ []) :
    ∃ final dropped rest, LineReading parts l final line dropped rest := by
  obtain ⟨final, dropped, rest, hread, -⟩ := exists_lineReading_join parts hgs hmode hne
  exact ⟨final, dropped, rest, hread⟩

/-! ## The end of a line -/

/-- A line end that begins in code leads to code. -/
theorem lineEnd_code {l : Lexer} {s : List Char} (hs : s = ['\n'] ∨ s = ['\r', '\n'])
    (h : (l.glyphsTo s none).head?.all Glyph.isCode = true) :
    (l.run s none).mode = .code ∧ (l.glyphsTo s none).getLast?.all Glyph.isCode = true := by
  have hfeed {l : Lexer} (hm : l.mode = .code) : (l.step '\n' none).1 = .code := by
    rw [Lexer.step_code hm]
    simp [Lexer.stepCode]
  rcases hs with rfl | rfl
  · have hcode : (l.step '\n' none).1 = .code := by
      simpa [Lexer.glyphsTo, Glyph.isCode] using h
    refine ⟨Lexer.mode_of_region_code hcode, ?_⟩
    simpa [Lexer.glyphsTo] using h
  · have hcode : (l.step '\r' (some '\n')).1 = .code := by
      simpa [Lexer.glyphsTo, Glyph.isCode] using h
    have hregion := hfeed (Lexer.mode_of_region_code hcode)
    refine ⟨Lexer.mode_of_region_code hregion, ?_⟩
    simpa [Lexer.glyphsTo, Glyph.isCode] using hregion

namespace Parts

variable {gs : List Glyph} (parts : Parts gs)

theorem terminator_chars : parts.terminator.map Glyph.char = [] ∨
    parts.terminator.map Glyph.char = ['\n'] ∨ parts.terminator.map Glyph.char = ['\r', '\n'] := by
  rcases parts.terminated with ht | ⟨feed, hfeed, ⟨ht, -⟩ | ⟨ret, hret, ht⟩⟩
  · exact Or.inl (by rw [ht]; rfl)
  · exact Or.inr (Or.inl (by rw [ht, List.map_singleton, hfeed]))
  · exact Or.inr (Or.inr (by rw [ht, List.map_cons, List.map_singleton, hret, hfeed]))

/-- Nothing is significant that says what the line end says. -/
theorem lineEnd_not {lineEnd : List Glyph}
    (h : lineEnd.map Glyph.char = parts.terminator.map Glyph.char) :
    ∀ g ∈ lineEnd, g.isSignificant = false := by
  intro g hg
  have hmem : g.char ∈ parts.terminator.map Glyph.char := h ▸ List.mem_map_of_mem hg
  apply Glyph.not_significant_of_isAsciiBlank
  rcases parts.terminator_chars with e | e | e
  · rw [e] at hmem
    cases hmem
  · rw [e] at hmem
    exact List.all_eq_true.mp (by decide : ['\n'].all isAsciiBlank = true) _ hmem
  · rw [e] at hmem
    exact List.all_eq_true.mp (by decide : ['\r', '\n'].all isAsciiBlank = true) _ hmem

theorem exists_feedless (hterm : parts.terminator ≠ []) : ∃ feedless,
    parts.terminator.map Glyph.char = feedless ++ ['\n'] ∧ ∀ d ∈ feedless, isPlain d = true := by
  rcases parts.terminator_chars.resolve_left (by simpa using hterm) with e | e
  · exact ⟨[], e, List.all_eq_true.mp (by decide)⟩
  · exact ⟨['\r'], e, List.all_eq_true.mp (by decide)⟩

/-- A line whose end begins in code ends in code. -/
theorem ends_in_code {l : Lexer} {line : List Char} (hgs : gs = l.glyphsTo line none)
    (hterm : parts.terminator ≠ [])
    (hcode : parts.terminator.head?.all Glyph.isCode = true) :
    (l.run line none).mode = .code ∧ parts.terminator.getLast?.all Glyph.isCode = true := by
  obtain ⟨hline, -, hterminator⟩ := Lexer.glyphsTo_eq_append (hgs.symm.trans parts.join)
  rw [Option.or_none] at hterminator
  have hchars := parts.terminator_chars.resolve_left (by simpa using hterm)
  rw [hline, Lexer.run_append, Option.or_none]
  have h := lineEnd_code hchars (by rw [← hterminator]; exact hcode)
  rwa [← hterminator] at h

theorem getLast?_of_terminator (hterm : parts.terminator ≠ []) :
    gs.getLast? = parts.terminator.getLast? := by
  obtain ⟨g, hg⟩ := Option.isSome_iff_exists.mp (List.getLast?_isSome.mpr hterm)
  have h := congrArg List.getLast? parts.join
  rw [h, List.getLast?_append, hg]
  rfl

end Parts

/-! ## After a captured line -/

theorem opened_step_of_semicolon {p : Progress} {g : Glyph} (h : g.char = ';') :
    (p.step g).nesting.opened = p.nesting.opened := by
  have hopen : isOpening ';' = false := by decide
  have hclose : isClosing ';' = false := by decide
  simp [Progress.step, Nesting.step, Nesting.openedAfter, h, hopen, hclose]

/-- A captured line ends outside all brackets, with a line end in code. -/
theorem Captures.broken_run {gs : List Glyph} {parts : Parts gs} {p : Progress} {fromCode : Bool}
    {f : List Glyph} (h : Captures parts p fromCode f) (hterm : parts.terminator ≠ [])
    (hlast : parts.terminator.getLast?.all Glyph.isCode = true) :
    (p.run gs).broken = true := by
  obtain ⟨g, hg⟩ := Option.isSome_iff_exists.mp (List.getLast?_isSome.mpr hterm)
  obtain ⟨init, hinit⟩ := List.getLast?_eq_some_iff.mp hg
  have hgnot : g.isSignificant = false := parts.terminator_not g (List.mem_of_getLast? hg)
  have hgcode : g.isCode = true := by
    rw [hg] at hlast
    exact hlast
  have hfeed : g.char = '\n' := by
    have hchars : (parts.terminator.map Glyph.char).getLast? = some g.char := by
      rw [List.getLast?_map, hg]
      rfl
    rcases parts.terminator_chars.resolve_left (by simpa using hterm) with e | e <;>
      · rw [e] at hchars
        exact (Option.some.inj hchars).symm
  have hjoin : gs = (parts.content ++ init) ++ [g] := by
    have hjoin := parts.join
    rw [hinit, ← List.append_assoc] at hjoin
    exact hjoin
  have houter : (p.run (parts.content ++ init)).isOuter = true := by
    have hafter := h.outerAfter
    rw [hjoin, Progress.run_concat] at hafter
    unfold Progress.isOuter at hafter ⊢
    rwa [Progress.step_opened_of_not hgnot] at hafter
  rw [hjoin, Progress.run_concat]
  simp [Progress.step, hgnot, Progress.breaksAt, hgcode, houter, hfeed]

/-- A final semicolon of a captured line has something of the statement before it. -/
theorem Captures.exists_significant_before {gs : List Glyph} {parts : Parts gs} {p : Progress}
    {fromCode : Bool} {f : List Glyph} (h : Captures parts p fromCode f) {init : List Glyph}
    {g : Glyph} (hstatement : parts.statement = init ++ [g]) (hchar : g.char = ';') :
    ∃ a ∈ init, a.isSignificant = true := by
  obtain ⟨first, hfirst, hcomment, -⟩ := h.begins
  have hne : init ≠ [] := by
    intro hnil
    apply h.nonempty
    rw [Parts.expression, hstatement, hnil, List.nil_append, List.map_singleton, hchar]
    rfl
  have hblank : isAsciiBlank first.char = false :=
    parts.headNotBlank first (by
      rw [List.head?_append, Option.mem_def.mp hfirst]
      rfl)
  rw [hstatement, List.head?_append_of_ne_nil _ hne] at hfirst
  refine ⟨first, List.mem_of_mem_head? hfirst, ?_⟩
  rw [Glyph.isSignificant, hcomment, hblank]
  rfl

/-- A final semicolon in code ends the statement of a captured line: it stands outside all
brackets, and not behind a call over several lines, for the line has begun before it. -/
theorem Captures.endsAt_semicolon {gs : List Glyph} {parts : Parts gs} {p : Progress}
    {fromCode : Bool} {f : List Glyph} (h : Captures parts p fromCode f) {init : List Glyph}
    {g : Glyph} (hstatement : parts.statement = init ++ [g]) (hchar : g.char = ';')
    (hcode : g.isCode = true) : (p.run (parts.indent ++ init)).endsAt g = true := by
  obtain ⟨a, ha, hsignificant⟩ := h.exists_significant_before hstatement hchar
  have hfeedless : ∀ b ∈ parts.indent ++ init, b.char ≠ '\n' := by
    intro b hb
    refine parts.feedless b ?_
    rw [hstatement]
    rcases List.mem_append.mp hb with hb | hb
    · exact List.mem_append_left _ hb
    · exact List.mem_append_right _ (List.mem_append_left _ (List.mem_append_left _ hb))
  have hcall := Progress.not_afterMultilineCall h.outer hfeedless
    ⟨a, List.mem_append_right _ ha, hsignificant⟩
  have houter : (p.run (parts.indent ++ init)).isOuter = true := by
    have hafter := h.outerAfter
    rw [parts.run_eq p hstatement] at hafter
    unfold Progress.isOuter at hafter ⊢
    rwa [Progress.run_opened_of_not _ parts.rest_not, opened_step_of_semicolon hchar] at hafter
  rw [Progress.endsAt, hcode, houter, hchar, hcall]
  rfl

/-- A captured line ends its statement, if its final semicolon is code. -/
theorem Captures.isFresh_run {gs : List Glyph} {parts : Parts gs} {p : Progress} {fromCode : Bool}
    {f : List Glyph} (h : Captures parts p fromCode f) (hterm : parts.terminator ≠ [])
    (hlast : parts.terminator.getLast?.all Glyph.isCode = true)
    (hcode : ∀ g ∈ parts.statement.getLast?, g.char = ';' → g.isCode = true) :
    (p.run gs).isFresh f = true := by
  rcases h.ends with hsemicolon | hnil | hnext
  · obtain ⟨g, hg, hchar⟩ := Option.map_eq_some_iff.mp hsemicolon
    obtain ⟨init, hinit⟩ := List.getLast?_eq_some_iff.mp hg
    have hends := h.endsAt_semicolon hinit hchar (hcode g (Option.mem_def.mpr hg) hchar)
    have hsignificant : g.isSignificant = true := parts.lastSignificant g hg
    rw [parts.run_eq p hinit, Progress.isFresh, Progress.run_ended_of_not _ parts.rest_not]
    simp [Progress.step, hsignificant, hends]
  · exact absurd hnil hterm
  · -- its line end does, for nothing continues it
    rw [Progress.isFresh, h.broken_run hterm hlast, hnext]
    simp

/-! ## A wrapped line -/

/-- The text of a line wrapped in a capture call. -/
def wrapped {gs : List Glyph} (parts : Parts gs) (number : Nat) : List Char :=
  parts.indent.map Glyph.char ++ captureCall parts.expression number
    ++ parts.terminator.map Glyph.char

theorem isPlain_of_isDigit {c : Char} (h : c.isDigit = true) : isPlain c = true := by
  rw [isPlain, Bool.not_eq_true', List.contains_eq_mem, decide_eq_false_iff_not]
  simp only [List.mem_cons, List.not_mem_nil, or_false]
  rintro (rfl | rfl | rfl | rfl | rfl | rfl | rfl | rfl | rfl | rfl) <;> exact absurd h (by decide)

theorem isPlain_of_mem_repr {n : Nat} {c : Char} (h : c ∈ (Nat.repr n).toList) :
    isPlain c = true := by
  refine isPlain_of_isDigit (Nat.isDigit_of_mem_toDigits (b := 10) (n := n) (by decide)
    (by decide) ?_)
  simpa [Nat.repr] using h

/-- What stands in a capture call before the expression. -/
def callStart : List Char := captureFunction ++ "(".toList

/-- What stands in the capture call of a line after the expression, without the semicolon. -/
def callEnd (number : Nat) : List Char := ", ".toList ++ (Nat.repr number).toList ++ ")".toList

theorem captureCall_eq (e : List Char) (number : Nat) :
    captureCall e number = callStart ++ (e ++ (callEnd number ++ [';'])) := by
  have hend : ");".toList = ")".toList ++ [';'] := by decide
  simp only [captureCall, callStart, callEnd, hend, List.append_assoc]

theorem isPlain_callStart : ∀ c ∈ callStart, isPlain c = true :=
  List.all_eq_true.mp (by decide)

theorem isPlain_callEnd (number : Nat) : ∀ c ∈ callEnd number, isPlain c = true := by
  intro c hc
  rw [callEnd] at hc
  rcases List.mem_append.mp hc with hc | hc
  · rcases List.mem_append.mp hc with hc | hc
    · exact List.all_eq_true.mp (by decide : ", ".toList.all isPlain = true) c hc
    · exact isPlain_of_mem_repr hc
  · exact List.all_eq_true.mp (by decide : ")".toList.all isPlain = true) c hc

/-- A semicolon that the lexer meets in code or in a string is significant. -/
theorem semicolon_significant {l : Lexer} {next : Option Char} (hready : l.Ready (some ';'))
    (hm : l.mode = .code ∨ ∃ quote, l.mode = .quoted quote) :
    Glyph.isSignificant ⟨';', (l.step ';' next).1⟩ = true := by
  rcases hm with hm | ⟨quote, hm⟩
  · rw [Lexer.step_code hm]
    simp [Lexer.stepCode, Glyph.isSignificant, Glyph.isComment, Region.isComment, isAsciiBlank]
  · rw [Lexer.Ready, hm] at hready
    have hq : ';' ≠ quote := by rcases hready with rfl | rfl <;> decide
    rw [Lexer.step_quoted hm]
    simp [Lexer.stepQuoted, hq, Glyph.isSignificant, Glyph.isComment, Region.isComment,
      isAsciiBlank]

/-- A line end after which the lexer is in code is code. -/
theorem getLast?_isCode {l : Lexer} {s : List Char}
    (hready : l.Ready (s ++ ['\n']).head?) (hm : (l.run (s ++ ['\n']) none).mode = .code) :
    (l.glyphsTo (s ++ ['\n']) none).getLast?.all Glyph.isCode = true := by
  have hready : (l.run s (some '\n')).Ready (some '\n') := by
    refine Lexer.ready_run ?_
    rwa [List.head?_append] at hready
  rw [Lexer.run_concat] at hm
  rw [Lexer.glyphsTo_concat, List.getLast?_concat, Option.all_some, Glyph.isCode,
    decide_eq_true_eq]
  exact (Lexer.step_newline hready).mpr hm

/-- How the end of a capture call is read, up to the end of its line. -/
structure CallEnd (final : Lexer) (number : Nat) (feedless : List Char) (inside : List Glyph)
    (semicolon : Glyph) (lineEnd : List Glyph) : Prop where
  glyphs : final.glyphsTo (callEnd number ++ ([';'] ++ (feedless ++ ['\n']))) none =
    inside ++ ([semicolon] ++ lineEnd)
  insideChars : inside.map Glyph.char = callEnd number
  char : semicolon.char = ';'
  significant : semicolon.isSignificant = true
  code : semicolon.isCode = true → final.mode = .code
  lineEndChars : lineEnd.map Glyph.char = feedless ++ ['\n']
  endsInCode : lineEnd.getLast?.all Glyph.isCode = true
  run : final.run (callEnd number ++ ([';'] ++ (feedless ++ ['\n']))) none =
    { final with mode := .code }

/-- Behind the line end the lexer is in code, whatever the expression left open. -/
theorem run_callEnd {final : Lexer} (hready : final.Ready (some ','))
    (hmodes : final.mode = .code ∨ final.mode.endsWithLine = true) (number : Nat)
    {feedless : List Char} (hfeedless : ∀ d ∈ feedless, isPlain d = true) :
    final.run (callEnd number ++ ([';'] ++ (feedless ++ ['\n']))) none =
      { final with mode := .code } := by
  have hplain : ∀ d ∈ callEnd number ++ ([';'] ++ feedless), isPlain d = true := by
    intro d hd
    rcases List.mem_append.mp hd with hd | hd
    · exact isPlain_callEnd number d hd
    · rcases List.mem_append.mp hd with hd | hd
      · rw [List.mem_singleton.mp hd]
        decide
      · exact hfeedless d hd
  have hrun : final.run ((callEnd number ++ ([';'] ++ feedless)) ++ ['\n']) none =
      { final with mode := .code } :=
    Lexer.run_plain_newline (by exact hready) hmodes hplain (by simp [callEnd])
  simp only [List.append_assoc] at hrun
  exact hrun

theorem exists_callEnd {final : Lexer} (hready : final.Ready (some ','))
    (hmodes : final.mode = .code ∨ final.mode.endsWithLine = true)
    (hline : final.mode ≠ .lineComment) (number : Nat) {feedless : List Char}
    (hfeedless : ∀ d ∈ feedless, isPlain d = true) :
    ∃ inside semicolon lineEnd, CallEnd final number feedless inside semicolon lineEnd := by
  have hrun := run_callEnd hready hmodes number hfeedless
  -- the state in front of the semicolon, and the state behind it
  obtain ⟨mid, hmid⟩ : ∃ mid, mid = final.run (callEnd number) (some ';') := ⟨_, rfl⟩
  obtain ⟨close, hclose⟩ : ∃ close, close = (mid.step ';' (feedless ++ ['\n']).head?).2 := ⟨_, rfl⟩
  have hmidReady : mid.Ready (some ';') := by
    rw [hmid]
    exact Lexer.ready_run (by exact hready)
  have hmidMode : mid.mode = final.mode.unescaped := by
    rw [hmid, Lexer.run_plain (by exact hready) hmodes (isPlain_callEnd number) (by simp [callEnd])]
  have hmidModes : mid.mode = .code ∨ ∃ quote, mid.mode = .quoted quote := by
    rw [hmidMode, Mode.unescaped_eq_code]
    exact hmodes.imp_right fun h => Mode.unescaped_of_endsWithLine h hline
  have hcloseReady : close.Ready (feedless ++ ['\n']).head? := by
    rw [hclose]
    exact Lexer.ready_step hmidReady
  refine ⟨final.glyphsTo (callEnd number) (some ';'),
    ⟨';', (mid.step ';' (feedless ++ ['\n']).head?).1⟩,
    close.glyphsTo (feedless ++ ['\n']) none, ?_⟩
  exact {
    glyphs := by
      rw [Lexer.glyphsTo_append, Lexer.glyphsTo_append, hclose, hmid]
      rfl
    insideChars := Lexer.map_char_glyphsTo ..
    char := rfl
    significant := semicolon_significant hmidReady hmidModes
    code := by
      intro hsemicolon
      rw [← Mode.unescaped_eq_code, ← hmidMode]
      refine (Lexer.step_plain hmidReady (hmidModes.imp_right ?_) (by decide : isPlain ';' = true)
        (feedless ++ ['\n']).head?).2.mp (by simpa [Glyph.isCode] using hsemicolon)
      rintro ⟨quote, e⟩
      rw [e]
      rfl
    lineEndChars := Lexer.map_char_glyphsTo ..
    endsInCode := by
      refine getLast?_isCode hcloseReady ?_
      rw [Lexer.run_append, Option.or_none, Lexer.run_append, Option.or_none] at hrun
      rw [hclose, hmid]
      exact congrArg Lexer.mode hrun
    run := hrun }

/-- If the expression ends in code, so does a semicolon behind it. -/
theorem LineReading.semicolon_isCode {gs : List Glyph} {parts : Parts gs} {l final : Lexer}
    {line dropped rest : List Char} (h : LineReading parts l final line dropped rest)
    (hmode : final.mode = .code) :
    ∀ g ∈ parts.statement.getLast?, g.char = ';' → g.isCode = true := by
  intro g hg hchar
  have hplain : ∀ d ∈ dropped, isPlain d = true := by
    intro d hd
    rcases h.reading.ends.blanks d hd with hb | rfl
    · refine isPlain_of_isBlank hb ?_
      rintro rfl
      exact h.feedless hd
    · decide
  have hne := h.reading.semicolon (by rw [Option.mem_def.mp hg, Option.map_some, hchar])
  obtain ⟨init, d, rfl⟩ := dropped.eq_nil_or_concat'.resolve_left hne
  have hlast := Option.mem_def.mp hg
  rw [h.reading.glyphs, (Lexer.plain_code hmode hplain _).1, List.map_append, List.map_singleton,
    ← List.append_assoc, List.getLast?_concat] at hlast
  rw [← Option.some.inj hlast]
  rfl

/-- How a wrapped line is read. -/
structure Wrapping {gs : List Glyph} (parts : Parts gs) (l : Lexer) (line : List Char)
    (number : Nat) (start inside : List Glyph) (semicolon : Glyph) (lineEnd : List Glyph) :
    Prop where
  glyphs : l.glyphsTo (wrapped parts number) none =
    parts.indent ++ (start ++ inside ++ [semicolon]) ++ lineEnd
  startCode : start = captureFunction.map (⟨·, .code⟩)
  insideChars : inside.map Glyph.char = "(".toList ++ (parts.expression ++ callEnd number)
  char : semicolon.char = ';'
  significant : semicolon.isSignificant = true
  lineEndChars : lineEnd.map Glyph.char = parts.terminator.map Glyph.char
  endsInCode : lineEnd.getLast?.all Glyph.isCode = true
  run : l.run (wrapped parts number) none = l.run line none
  semicolonCode : semicolon.isCode = true →
    ∀ g ∈ parts.statement.getLast?, g.char = ';' → g.isCode = true

theorem exists_wrapping {gs : List Glyph} {l : Lexer} {line : List Char} {parts : Parts gs}
    {p : Progress} {fromCode : Bool} {f : List Glyph} (hgs : gs = l.glyphsTo line none)
    (hmode : l.mode = .code) (h : Captures parts p fromCode f) (hterm : parts.terminator ≠ [])
    (number : Nat) :
    ∃ start inside semicolon lineEnd,
      Wrapping parts l line number start inside semicolon lineEnd := by
  obtain ⟨final, dropped, rest, hread⟩ := exists_lineReading parts hgs hmode h.nonempty
  have hcode := (parts.ends_in_code hgs hterm h.endsInCode).1
  rw [hread.run] at hcode
  obtain ⟨hrun, hfinal⟩ := hread.reading.ends.run_eq hcode
  have hline : final.mode ≠ .lineComment := fun e =>
    absurd (hread.reading.ends.not_inComment.2 e) hread.feedless
  -- the expression is read as before, though a comma follows it
  obtain ⟨hsame, hstate⟩ :=
    hread.reading.same h.nonempty (by simp) (by decide : (some ',').any isMark = false)
  have hready : final.Ready (some ',') := by
    rw [← hstate]
    exact Lexer.ready_run (by rw [Lexer.Ready, hmode]; trivial)
  obtain ⟨feedless, hterminator, hfeedless⟩ := parts.exists_feedless hterm
  obtain ⟨inside, semicolon, lineEnd, hend⟩ :=
    exists_callEnd hready (hfinal.imp_right And.left) hline number hfeedless
  have htext : wrapped parts number = parts.indent.map Glyph.char ++ (callStart ++
      (parts.expression ++ (callEnd number ++ ([';'] ++ (feedless ++ ['\n']))))) := by
    rw [wrapped, captureCall_eq, hterminator]
    simp only [List.append_assoc]
  have hcomma : (callEnd number ++ ([';'] ++ (feedless ++ ['\n']))).head? = some ',' := rfl
  have hindent (next : Option Char) := Lexer.plain_code hmode parts.isPlain_indent next
  have hstart (next : Option Char) := Lexer.plain_code hmode isPlain_callStart next
  refine ⟨captureFunction.map (⟨·, .code⟩),
    "(".toList.map (⟨·, .code⟩) ++ (l.glyphsTo parts.expression (some ',') ++ inside),
    semicolon, lineEnd, ?_⟩
  exact {
    glyphs := by
      rw [htext, Lexer.glyphsTo_append, (hindent _).1, (hindent _).2, ← hread.indent,
        Lexer.glyphsTo_append, (hstart _).1, (hstart _).2, Lexer.glyphsTo_append, hcomma,
        Option.some_or, hstate, hend.glyphs, callStart, List.map_append]
      simp only [List.append_assoc]
    startCode := rfl
    insideChars := by
      rw [List.map_append, List.map_append, Lexer.map_char_glyphsTo, hend.insideChars]
      rfl
    char := hend.char
    significant := hend.significant
    lineEndChars := by rw [hend.lineEndChars, hterminator]
    endsInCode := hend.endsInCode
    run := by
      rw [htext, Lexer.run_append, (hindent _).2, Lexer.run_append, (hstart _).2,
        Lexer.run_append, hcomma, Option.some_or, hstate, hend.run, hread.run, hrun]
    semicolonCode := fun hsemicolon => hread.semicolon_isCode (hend.code hsemicolon) }

end SnippetRunner.Script
