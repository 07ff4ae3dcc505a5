import SnippetRunner.Proofs.Script.LineWalk

/-
  Capturing twice. A wrapped line begins with the capture function and is left alone, and what it
  was wrapped in leaves the lexer and the walk where they were, but for one thing: a closing
  parenthesis before a semicolon on the next line may now be of a call over several lines, or no
  longer be one. So the second pass captures a line only at a detached semicolon.
-/
namespace SnippetRunner.Script

open SnippetRunner.Text SnippetRunner.Source

/-! ## The beginning of a line -/

theorem isSkippedForm_captureFunction (rest : List Char) :
    isSkippedForm (captureFunction ++ rest) = true := by
  have h : (dropStart? captureFunction (captureFunction ++ rest)).isSome = true := by
    rw [dropStart?_eq_some_iff.mpr rfl]
    rfl
  rw [isSkippedForm, h, Bool.or_true]

theorem captureFunction_ne_nil : captureFunction ≠ [] := by decide

namespace Parts

variable {gs : List Glyph} (parts : Parts gs)

/-- A line with a significant character has a statement. -/
theorem statement_ne_nil {g : Glyph} (hmem : g ∈ gs) (hg : g.isSignificant = true) :
    parts.statement ≠ [] := by
  intro hnil
  rw [parts.join_statement, hnil, List.nil_append] at hmem
  rcases List.mem_append.mp hmem with hmem | hmem
  · rw [parts.indent_not g hmem] at hg
    cases hg
  · rw [parts.rest_not g hmem] at hg
    cases hg

/-- The blanks before the first significant character of a line are its indentation. -/
theorem indent_eq_of_start {blanks rest : List Glyph} {g : Glyph} (h : gs = blanks ++ g :: rest)
    (hblanks : ∀ b ∈ blanks, isAsciiBlank b.char = true) (hg : g.isSignificant = true) :
    parts.indent = blanks := by
  have hstatement : parts.statement ≠ [] := parts.statement_ne_nil (by rw [h]; simp) hg
  have hhead : ∀ b ∈ (parts.statement ++ (parts.after ++ parts.terminator)).head?,
      isAsciiBlank b.char = false := by
    intro b hb
    refine parts.headNotBlank b ?_
    rw [List.head?_append_of_ne_nil _ hstatement] at hb ⊢
    exact hb
  have htake := congrArg (List.takeWhile fun g : Glyph => isAsciiBlank g.char)
    (parts.join_statement.symm.trans h)
  rw [List.takeWhile_append_of_pos parts.indentBlank, takeWhile_eq_nil hhead, List.append_nil,
    List.takeWhile_append_of_pos hblanks, takeWhile_eq_nil, List.append_nil] at htake
  · exact htake
  · intro b hb
    obtain rfl : g = b := Option.some.inj hb
    exact (Glyph.isSignificant_iff.mp hg).2

/-- A line that begins with significant glyphs after blanks has a statement that begins so. -/
theorem statement_of_start {blanks start rest : List Glyph} (h : gs = blanks ++ (start ++ rest))
    (hblanks : ∀ g ∈ blanks, isAsciiBlank g.char = true) (hne : start ≠ [])
    (hstart : ∀ g ∈ start, g.isSignificant = true) :
    parts.indent = blanks ∧ ∃ more, parts.statement = start ++ more := by
  obtain ⟨first, start', rfl⟩ := List.exists_cons_of_ne_nil hne
  have hindent := parts.indent_eq_of_start h hblanks (hstart first (List.mem_cons_self ..))
  refine ⟨hindent, ?_⟩
  have hsplit := parts.join_statement.symm.trans h
  rw [hindent, List.append_cancel_left_eq, List.append_eq_append_iff] at hsplit
  rcases hsplit with ⟨more, hmore, hrest⟩ | ⟨more, hmore, -⟩
  · -- the start reaches beyond the statement, where nothing is significant
    refine ⟨[], ?_⟩
    have hnil : more = [] := by
      refine List.eq_nil_iff_forall_not_mem.mpr fun g hg => ?_
      have hsig := hstart g (by rw [hmore]; exact List.mem_append_right _ hg)
      rw [parts.rest_not g (by rw [hrest]; exact List.mem_append_left _ hg)] at hsig
      cases hsig
    rw [List.append_nil, hmore, hnil, List.append_nil]
  · exact ⟨more, hmore⟩

/-- The start of a line that is left alone. -/
theorem not_captures_of_start {blanks start rest : List Glyph} {p : Progress} {fromCode : Bool}
    {f : List Glyph} (h : gs = blanks ++ (start ++ rest))
    (hblanks : ∀ g ∈ blanks, isAsciiBlank g.char = true) (hne : start ≠ [])
    (hstart : ∀ g ∈ start, g.isSignificant = true)
    (hform : ∀ more, isSkippedForm (start.map Glyph.char ++ more) = true) :
    ¬Captures parts p fromCode f := by
  intro hcap
  obtain ⟨-, more, hmore⟩ := parts.statement_of_start h hblanks hne hstart
  have := hcap.form
  rw [hmore, List.map_append, hform] at this
  cases this

/-- A wrapped line begins with the capture function. -/
theorem glyphsTo_wrapped {l : Lexer} (hmode : l.mode = .code) (number : Nat) :
    ∃ blanks rest, l.glyphsTo (wrapped parts number) none =
        blanks ++ (captureFunction.map (⟨·, .code⟩) ++ rest) ∧
      ∀ g ∈ blanks, isAsciiBlank g.char = true := by
  have hfunction : ∀ c ∈ captureFunction, isPlain c = true := List.all_eq_true.mp (by decide)
  have htext : wrapped parts number = parts.indent.map Glyph.char ++ (captureFunction ++
      ("(".toList ++ (parts.expression ++ (callEnd number ++ [';'])) ++
        parts.terminator.map Glyph.char)) := by
    rw [wrapped, captureCall_eq, callStart]
    simp only [List.append_assoc]
  refine ⟨(parts.indent.map Glyph.char).map (⟨·, .code⟩), l.glyphsTo
    ("(".toList ++ (parts.expression ++ (callEnd number ++ [';'])) ++
      parts.terminator.map Glyph.char) none, ?_, ?_⟩
  · rw [htext, Lexer.glyphsTo_append, (Lexer.plain_code hmode parts.isPlain_indent _).1,
      (Lexer.plain_code hmode parts.isPlain_indent _).2, Lexer.glyphsTo_append,
      (Lexer.plain_code hmode hfunction _).1, (Lexer.plain_code hmode hfunction _).2]
  · intro g hg
    obtain ⟨c, hc, rfl⟩ := List.mem_map.mp hg
    obtain ⟨g', hg', rfl⟩ := List.mem_map.mp hc
    exact parts.indentBlank g' hg'

theorem captureFunction_significant :
    ∀ g ∈ captureFunction.map (⟨·, .code⟩ : Char → Glyph), g.isSignificant = true := by
  intro g hg
  obtain ⟨c, hc, rfl⟩ := List.mem_map.mp hg
  refine Glyph.isSignificant_of_isCode rfl ?_
  have hall : captureFunction.all (!isAsciiBlank ·) = true := by decide
  simpa using List.all_eq_true.mp hall c hc

/-- A wrapped line is left alone. -/
theorem not_captures_wrapped {l : Lexer} {number : Nat} (hmode : l.mode = .code)
    (again : Parts (l.glyphsTo (wrapped parts number) none)) {p : Progress} {fromCode : Bool}
    {f : List Glyph} : ¬Captures again p fromCode f := by
  obtain ⟨blanks, rest, hglyphs, hblanks⟩ := parts.glyphsTo_wrapped hmode number
  refine again.not_captures_of_start hglyphs hblanks (by simp [captureFunction_ne_nil])
    captureFunction_significant fun more => ?_
  rw [List.map_map]
  exact isSkippedForm_captureFunction more

end Parts

/-! ## A wrapped line is a line -/

namespace Parts

variable {gs : List Glyph} (parts : Parts gs) (number : Nat)

theorem wrapped_eq : wrapped parts number =
    (parts.indent.map Glyph.char ++ captureCall parts.expression number) ++
      parts.terminator.map Glyph.char := rfl

theorem wrapped_feedless :
    '\n' ∉ parts.indent.map Glyph.char ++ captureCall parts.expression number := by
  have hexpression : '\n' ∉ parts.expression := by
    obtain ⟨blanks, semicolon, hsplit, -⟩ := expression_append (parts.statement.map Glyph.char)
    intro hmem
    have hmem : '\n' ∈ parts.statement.map Glyph.char := by
      rw [hsplit]
      exact List.mem_append_left _ hmem
    obtain ⟨g, hg, e⟩ := List.mem_map.mp hmem
    exact parts.feedless g (List.mem_append_right _ (List.mem_append_left _ hg)) e
  have hcall : '\n' ∉ callStart := by decide
  have hend : '\n' ∉ callEnd number := fun h => absurd (isPlain_callEnd number _ h) (by decide)
  rw [captureCall_eq]
  simp only [List.mem_append, not_or]
  refine ⟨?_, hcall, hexpression, hend, by decide⟩
  intro hmem
  obtain ⟨g, hg, e⟩ := List.mem_map.mp hmem
  exact parts.indent_feedless g hg e

theorem cut_wrapped : Cut (· = '\n') [wrapped parts number] := by
  have hfeedless := parts.wrapped_feedless number
  have hmarked {s : List Char} (h : '\n' ∉ s) : ∀ c ∈ s, decide (c = '\n') = false := by
    rintro c hc
    refine decide_eq_false ?_
    rintro rfl
    exact h hc
  rw [wrapped_eq]
  rcases parts.terminator_chars with e | e | e
  · rw [e, List.append_nil]
    refine .unclosed ?_ (hmarked hfeedless)
    simp [captureCall_eq, callStart]
  · rw [e]
    exact .closed (hmarked hfeedless) (by decide) .nil
  · have hreturn : ['\r', '\n'] = ['\r'] ++ ['\n'] := rfl
    rw [e, hreturn, ← List.append_assoc]
    refine .closed (hmarked ?_) (by decide) .nil
    simp only [List.mem_append, not_or] at hfeedless ⊢
    exact ⟨hfeedless, by decide⟩

theorem terminator_ne_nil (h : gs.getLast?.map Glyph.char = some '\n') :
    parts.terminator ≠ [] := by
  intro hnil
  obtain ⟨g, hg, hchar⟩ := Option.map_eq_some_iff.mp h
  have hmem := List.mem_of_getLast? hg
  rw [parts.join, hnil, List.append_nil] at hmem
  exact parts.feedless g hmem hchar

theorem getLast?_wrapped (hterm : parts.terminator ≠ []) :
    (wrapped parts number).getLast? = some '\n' := by
  rw [wrapped_eq]
  rcases parts.terminator_chars.resolve_left (by simpa using hterm) with e | e
  · rw [e, List.getLast?_concat]
  · rw [e, List.getLast?_append]
    rfl

end Parts

/-- Nothing follows a line without a line end. -/
theorem FirstLine.rest_eq_nil {l : Lexer} {line rest : List Char} (h : FirstLine line rest)
    (parts : Parts (l.glyphsTo line none)) (hterm : parts.terminator = []) : rest = [] := by
  by_contra hrest
  refine parts.terminator_ne_nil ?_ hterm
  rw [← List.getLast?_map, Lexer.map_char_glyphsTo]
  exact h.ended hrest

/-- The wrapped line stands where the line stood. -/
theorem FirstLine.wrapped {l : Lexer} {line rest rest' : List Char}
    (h : FirstLine line rest) (parts : Parts (l.glyphsTo line none)) (number : Nat)
    (hrest : rest = [] → rest' = []) : FirstLine (wrapped parts number) rest' where
  cut := parts.cut_wrapped number
  ended := by
    intro hne
    exact parts.getLast?_wrapped number fun hterm => hne (hrest (h.rest_eq_nil parts hterm))

/-! ## What follows a line -/

/-- The statement of a captured line begins with a significant character, which begins it for the
walk. -/
theorem Captures.head {gs : List Glyph} {parts : Parts gs} {p : Progress} {fromCode : Bool}
    {f : List Glyph} (h : Captures parts p fromCode f) :
    ∃ g more, parts.statement = g :: more ∧ g.isSignificant = true ∧
      (p.ended || (p.broken && !isContinuation g.char)) = true := by
  obtain ⟨g, hg, hcomment, hfresh⟩ := h.begins
  obtain ⟨more, hmore⟩ : ∃ more, parts.statement = g :: more := by
    cases hs : parts.statement with
    | nil => rw [hs] at hg; cases hg
    | cons g' more =>
      rw [hs] at hg
      obtain rfl : g' = g := Option.some.inj hg
      exact ⟨more, rfl⟩
  have hblank : isAsciiBlank g.char = false := parts.headNotBlank g (by rw [hmore]; rfl)
  refine ⟨g, more, hmore, ?_, hfresh⟩
  rw [Glyph.isSignificant, hcomment, hblank]
  rfl

theorem Parts.continuesIn_eq {gs : List Glyph} (parts : Parts gs) {g : Glyph} {more : List Glyph}
    (hmore : parts.statement = g :: more) (hg : g.isSignificant = true) (f : List Glyph) :
    continuesIn (gs ++ f) = isContinuation g.char := by
  have hjoin : gs ++ f =
      parts.indent ++ (g :: (more ++ (parts.after ++ (parts.terminator ++ f)))) := by
    rw [parts.join_following, hmore]
    rfl
  rw [hjoin, continuesIn_append_of_not parts.indent_not, continuesIn_cons_of_significant hg]

theorem continuesIn_append_of_any {gs : List Glyph} (h : gs.any Glyph.isSignificant = true)
    (f f' : List Glyph) : continuesIn (gs ++ f) = continuesIn (gs ++ f') := by
  obtain ⟨g, hg⟩ := Option.isSome_iff_exists.mp (List.find?_isSome (p := Glyph.isSignificant) |>.mpr
    (List.any_eq_true.mp h))
  rw [continuesIn, continuesIn, nextSignificant, nextSignificant, List.find?_append,
    List.find?_append, hg]
  rfl

/-- What continues a statement that no semicolon ended is kept, so it still continues it. -/
theorem continuesIn_instrumentedFrom {l : Lexer} {p : Progress} {fromCode : Bool} {number : Nat}
    {text : List Char} (hended : p.ended = false)
    (h : continuesIn (l.glyphsFrom text) = true) :
    continuesIn (l.glyphsFrom (instrumentedFrom number fromCode l p text)) = true := by
  induction text using lines_induction generalizing l p fromCode number with
  | nil => exact h
  | @line line rest hline ih =>
    obtain ⟨parts⟩ := hline.nonempty_parts l
    rw [hline.glyphsFrom] at h
    have hkept : ¬Captures parts p fromCode ((l.run line none).glyphsFrom rest) := by
      intro hcap
      obtain ⟨g, more, hmore, hg, hfresh⟩ := hcap.head
      rw [parts.continuesIn_eq hmore hg] at h
      simp [hended, h] at hfresh
    have hrest : FirstLine line (instrumentedFrom (number + 1)
        ((l.glyphsTo line none).getLast?.all Glyph.isCode) (l.run line none)
        (p.run (l.glyphsTo line none)) rest) := by
      refine ⟨hline.cut, fun hne => hline.ended ?_⟩
      rintro rfl
      exact hne rfl
    rw [hline.instrumentedFrom_kept parts fromCode number hkept, hrest.glyphsFrom]
    cases hany : (l.glyphsTo line none).any Glyph.isSignificant with
    | true => rwa [← continuesIn_append_of_any hany]
    | false =>
      have hnot : ∀ g ∈ l.glyphsTo line none, g.isSignificant = false := by
        simpa using List.any_eq_false.mp hany
      rw [continuesIn_append_of_not hnot] at h ⊢
      exact ih ((p.run_ended_of_not hnot).trans hended) h

/-! ## One line, in both passes -/

theorem Parts.significantChars_eq {gs : List Glyph} (parts : Parts gs) :
    significantChars gs = significantChars parts.statement := by
  have hjoin := congrArg significantChars parts.join
  rw [significantChars_append, significantChars_append, significantChars_append,
    significantChars_eq_nil.mpr parts.indent_not, significantChars_eq_nil.mpr parts.afterNot,
    significantChars_eq_nil.mpr parts.terminator_not, List.nil_append, List.append_nil,
    List.append_nil] at hjoin
  exact hjoin

/-- A line has ended a statement with a semicolon only if the semicolon is its last significant
character. -/
theorem Parts.ended_run {gs : List Glyph} (parts : Parts gs) {p : Progress}
    (hne : parts.statement ≠ []) (h : (p.run gs).ended = true) :
    parts.statement.getLast?.map Glyph.char = some ';' := by
  obtain ⟨init, g, hinit⟩ := parts.statement.eq_nil_or_concat'.resolve_left hne
  have hg : g.isSignificant = true :=
    parts.lastSignificant g (by rw [hinit, List.getLast?_concat]; rfl)
  rw [parts.run_eq p hinit, Progress.run_ended_of_not _ parts.rest_not] at h
  simp only [Progress.step, hg, if_true, Progress.endsAt, Bool.and_eq_true, decide_eq_true_eq] at h
  rw [hinit, List.getLast?_concat, Option.map_some, h.2.1]

/-- What follows matters only to a line that no semicolon ends. -/
theorem Captures.ends_of_following {gs : List Glyph} {parts : Parts gs} {p p' : Progress}
    {fromCode : Bool} {f f' : List Glyph} (h : Captures parts p' fromCode f')
    (hf : (p.run gs).ended = false → continuesIn f = true → continuesIn f' = true) :
    parts.statement.getLast?.map Glyph.char = some ';' ∨ parts.terminator = [] ∨
      continuesIn f = false := by
  obtain ⟨g, more, hmore, -, -⟩ := h.head
  rcases h.ends with hsemicolon | hnil | hnext
  · exact Or.inl hsemicolon
  · exact Or.inr (Or.inl hnil)
  · cases hended : (p.run gs).ended with
    | true => exact Or.inl (parts.ended_run (by rw [hmore]; exact List.cons_ne_nil _ _) hended)
    | false =>
      refine Or.inr (Or.inr ?_)
      by_contra hcontinues
      rw [hf hended (by simpa using hcontinues)] at hnext
      cases hnext

/-- A line that only the second pass captures is at a detached semicolon. -/
theorem Captures.of_parallel {gs : List Glyph} {parts : Parts gs} {o : Opening} {p p' : Progress}
    {fromCode : Bool} {f f' : List Glyph} (hpar : Parallel o [] p p' (gs ++ f))
    (h : Captures parts p' fromCode f') (hat : o.isAt (significantChars gs) = false)
    (hf : (p.run gs).ended = false → continuesIn f = true → continuesIn f' = true) :
    Captures parts p fromCode f := by
  obtain ⟨g, more, hmore, hg, hfresh⟩ := h.head
  have hopened : p'.nesting.opened = [] := List.isEmpty_iff.mp h.outer
  have hindent : Parallel o [] (p.run parts.indent) (p'.run parts.indent)
      (parts.statement ++ (parts.after ++ (parts.terminator ++ f))) := by
    rw [parts.join_following] at hpar
    have hrun := hpar.run
    rwa [List.nil_append, significantChars_eq_nil.mpr parts.indent_not] at hrun
  exact {
    outer := List.isEmpty_iff.mpr (hpar.opened_eq_nil hopened)
    outerAfter := by
      have hafter := List.isEmpty_iff.mp h.outerAfter
      exact List.isEmpty_iff.mpr (hpar.run.opened_eq_nil hafter)
    fromCode := h.fromCode
    endsInCode := h.endsInCode
    begins := by
      refine ⟨g, by rw [hmore]; rfl, (Glyph.isSignificant_iff.mp hg).1, ?_⟩
      rw [Bool.or_eq_true, Bool.and_eq_true] at hfresh
      rcases hfresh with hended | ⟨hbroken, hnot⟩
      · rcases hpar.ended hended with hp | hdetached
        · rwa [Progress.isFresh, parts.continuesIn_eq hmore hg] at hp
        · rw [Opening.isAt, show o.detached = true from hdetached] at hat
          cases hat
      · rw [hpar.broken hbroken, hnot]
        simp
    form := h.form
    single := by
      have hopened' : (p'.run parts.indent).nesting.opened = [] := by
        rw [Progress.run_opened_of_not _ parts.indent_not, hopened]
      rw [← hindent.endsWithin_eq hopened' hat, h.single]
      intro a ha
      obtain rfl : g = a := by
        rw [hmore] at ha
        cases more with
        | nil => cases ha
        | cons b more => exact Option.some.inj ha
      rw [parts.significantChars_eq, hmore, significantChars_cons, if_pos hg]
      exact ⟨hg, rfl⟩
    ends := h.ends_of_following hf
    nonempty := h.nonempty }

theorem callClosedBy_semicolon {n : Nesting} {g : Glyph} (h : g.char = ';') :
    n.callClosedBy g = none := by
  unfold Nesting.callClosedBy
  split
  · rw [if_neg (by simp [h])]
  · rfl

section Wrapping

variable {l : Lexer} {line : List Char} {parts : Parts (l.glyphsTo line none)} {number : Nat}
  {start inside lineEnd : List Glyph} {semicolon : Glyph}

theorem Wrapping.lineEnd_not (w : Wrapping parts l line number start inside semicolon lineEnd) :
    ∀ g ∈ lineEnd, g.isSignificant = false :=
  parts.lineEnd_not w.lineEndChars

/-- A wrapped line ends in code. -/
theorem Wrapping.getLast?_all (w : Wrapping parts l line number start inside semicolon lineEnd)
    (hterm : parts.terminator ≠ []) :
    (l.glyphsTo (wrapped parts number) none).getLast?.all Glyph.isCode = true := by
  have hne : lineEnd ≠ [] := by
    rintro rfl
    exact hterm (List.map_eq_nil_iff.mp w.lineEndChars.symm)
  rw [w.glyphs, List.getLast?_append_of_ne_nil _ hne]
  exact w.endsInCode

/-- A line and what it is wrapped in have the same line ends. -/
theorem count_wrapped (parts : Parts (l.glyphsTo line none)) (number : Nat) :
    (wrapped parts number).count '\n' = line.count '\n' := by
  have hline : line = parts.content.map Glyph.char ++ parts.terminator.map Glyph.char := by
    refine (Lexer.map_char_glyphsTo l line none).symm.trans ?_
    rw [← List.map_append]
    exact congrArg _ parts.join
  have hcontent : '\n' ∉ parts.content.map Glyph.char := by
    intro hmem
    obtain ⟨g, hg, e⟩ := List.mem_map.mp hmem
    exact parts.feedless g hg e
  have hcount : line.count '\n' = (parts.terminator.map Glyph.char).count '\n' := by
    rw [congrArg (List.count '\n') hline, List.count_append, List.count_eq_zero_of_not_mem hcontent,
      Nat.zero_add]
  rw [hcount, parts.wrapped_eq, List.count_append,
    List.count_eq_zero_of_not_mem (parts.wrapped_feedless number), Nat.zero_add]

/-- Behind a wrapped line the two passes go on alike. -/
theorem Wrapping.parallel (w : Wrapping parts l line number start inside semicolon lineEnd)
    {o : Opening} {p p' : Progress} {fromCode : Bool} {f : List Glyph}
    (hpar : Parallel o [] p p' (l.glyphsTo line none ++ f)) (h : Captures parts p fromCode f)
    (hterm : parts.terminator ≠ []) :
    Parallel (o.after (significantChars (l.glyphsTo line none))) []
      (p.run (l.glyphsTo line none)) (p'.run (l.glyphsTo (wrapped parts number) none)) f := by
  have hlast := (parts.ends_in_code rfl hterm h.endsInCode).2
  have hrun : p'.run (l.glyphsTo (wrapped parts number) none) =
      ((p'.run (parts.indent ++ (start ++ inside))).step semicolon).run lineEnd := by
    rw [w.glyphs, ← List.append_assoc parts.indent, Progress.run_append, Progress.run_concat]
  exact {
    line := by
      rw [Progress.run_line, Progress.run_line, Lexer.map_char_glyphsTo, Lexer.map_char_glyphsTo,
        count_wrapped, hpar.line]
    opened := ⟨_, by rw [List.isEmpty_iff.mp h.outerAfter, List.nil_append]⟩
    called := by
      rintro (hcall | hcall)
      · exact hpar.nextLine.called (Or.inl hcall)
      · rw [hrun, Progress.run_callClosed_of_not _ w.lineEnd_not] at hcall
        simp only [Progress.step, Nesting.step, w.significant, if_true,
          callClosedBy_semicolon w.char] at hcall
        cases hcall
    agrees := fun hne => absurd rfl hne
    ended := by
      intro hended
      rw [hrun, Progress.run_ended_of_not _ w.lineEnd_not] at hended
      simp only [Progress.step, w.significant, if_true, Progress.endsAt, Bool.and_eq_true] at hended
      exact Or.inl (h.isFresh_run hterm hlast (w.semicolonCode hended.1.1))
    broken := fun _ => h.broken_run hterm hlast }

end Wrapping

/-! ## All lines -/

/-- The glyphs of the first line are the first line of the glyphs. -/
theorem FirstLine.splitAfter_glyphs {l : Lexer} {line rest : List Char} (h : FirstLine line rest)
    {following : List Glyph} (hfollowing : following.map Glyph.char = rest) :
    splitAfter (·.char = '\n') (l.glyphsTo line none ++ following) =
      l.glyphsTo line none :: splitAfter (·.char = '\n') following := by
  refine splitAfter_append_piece (cut_glyphsTo l none h.cut) fun hne => ?_
  have hlast := h.ended (by rw [← hfollowing]; simpa using hne)
  rw [← Lexer.map_char_glyphsTo l line none, List.getLast?_map, Option.map_eq_some_iff] at hlast
  obtain ⟨g, hg, hchar⟩ := hlast
  rw [hg, Option.any_some, hchar]
  rfl

theorem FirstLine.splitAfter_glyphsFrom {l : Lexer} {line rest : List Char}
    (h : FirstLine line rest) :
    splitAfter (·.char = '\n') (l.glyphsFrom (line ++ rest)) = l.glyphsTo line none ::
      splitAfter (·.char = '\n') ((l.run line none).glyphsFrom rest) := by
  rw [h.glyphsFrom, h.splitAfter_glyphs (Lexer.map_char_glyphsFrom _ rest)]

/-- Behind a code character the lexer is in code. -/
theorem mode_of_getLast? {l : Lexer} {line : List Char} {next : Option Char} (hne : line ≠ [])
    (h : (l.glyphsTo line next).getLast?.all Glyph.isCode = true) :
    (l.run line next).mode = .code := by
  obtain ⟨init, c, rfl⟩ := line.eq_nil_or_concat'.resolve_left hne
  rw [Lexer.glyphsTo_concat, List.getLast?_concat, Option.all_some] at h
  rw [Lexer.run_concat]
  exact Lexer.mode_of_region_code (by simpa [Glyph.isCode] using h)

/-- In the second pass a line is captured only at a detached semicolon. -/
theorem isAtLine_of_recaptured {l : Lexer} {p p' : Progress} {o : Opening} {fromCode : Bool}
    {number k : Nat} {text : List Char} (hcode : fromCode = true → l.mode = .code)
    (hpar : Parallel o [] p p' (l.glyphsFrom text))
    (h : CapturesLine fromCode (lines (walk l p' (instrumentedFrom number fromCode l p text))) k) :
    o.isAtLine (splitAfter (·.char = '\n') (l.glyphsFrom text)) k = true := by
  induction text using lines_induction generalizing l p p' o fromCode number k with
  | nil => cases h
  | @line line rest hline ih =>
    obtain ⟨parts⟩ := hline.nonempty_parts l
    rw [hline.splitAfter_glyphsFrom]
    rw [hline.glyphsFrom] at hpar
    have hne : line ≠ [] := hline.cut.ne_nil (List.mem_singleton_self _)
    have hcode' := @mode_of_getLast? l _ none hne
    obtain ⟨rest', hrest'⟩ : ∃ rest', rest' = instrumentedFrom (number + 1)
        ((l.glyphsTo line none).getLast?.all Glyph.isCode) (l.run line none)
        (p.run (l.glyphsTo line none)) rest := ⟨_, rfl⟩
    have hnil : rest = [] → rest' = [] := by
      rintro rfl
      exact hrest'
    by_cases hcap : Captures parts p fromCode ((l.run line none).glyphsFrom rest)
    · -- the wrapped line is left alone, and the lines behind it are read as before
      have hline' := hline.wrapped parts number hnil
      have hmode := hcode hcap.fromCode
      obtain ⟨again⟩ := hline'.nonempty_parts l
      rw [hline.instrumentedFrom_captured parts fromCode number hcap, ← hrest'] at h
      cases k with
      | zero =>
        exact absurd ((hline'.capturesLine_zero again fromCode).mp h)
          (parts.not_captures_wrapped hmode again)
      | succ k =>
        rw [hline'.capturesLine_succ] at h
        rw [Opening.isAtLine]
        by_cases hterm : parts.terminator = []
        · rw [hnil (hline.rest_eq_nil parts hterm)] at h
          cases h
        · obtain ⟨start, inside, semicolon, lineEnd, w⟩ :=
            exists_wrapping rfl hmode hcap hterm number
          have hlast := (parts.ends_in_code rfl hterm hcap.endsInCode).2
          rw [← parts.getLast?_of_terminator hterm] at hlast
          rw [w.getLast?_all hterm, w.run, hrest', hlast] at h
          exact ih (fun _ => hcode' hlast) (w.parallel hpar hcap hterm) h
    · have hline' : FirstLine line rest' := ⟨hline.cut, fun hne => hline.ended (mt hnil hne)⟩
      rw [hline.instrumentedFrom_kept parts fromCode number hcap, ← hrest'] at h
      cases k with
      | zero =>
        rw [Opening.isAtLine]
        by_contra hat
        refine hcap (((hline'.capturesLine_zero parts fromCode).mp h).of_parallel hpar
          (by simpa using hat) fun hended hcontinues => ?_)
        rw [hrest']
        exact continuesIn_instrumentedFrom hended hcontinues
      | succ k =>
        rw [hline'.capturesLine_succ, hrest'] at h
        exact ih hcode' hpar.nextLine h

/-! ## Detached semicolons after the first pass -/

/-- What the lines before tell in an instrumented text, against what they tell in the text. -/
structure Below (o' o : Opening) : Prop where
  last : o'.last = some ')' → o.last = some ')'
  detached : o'.detached = true → o.detached = true

theorem Below.isAt {o o' : Opening} (h : Below o' o) {line : List Char}
    (hat : o'.isAt line = true) : o.isAt line = true := by
  simp only [Opening.isAt, Bool.or_eq_true, Bool.and_eq_true, decide_eq_true_eq] at hat ⊢
  exact hat.imp h.detached (And.imp_left h.last)

theorem Below.after {o o' : Opening} (h : Below o' o) (line : List Char) :
    Below (o'.after line) (o.after line) := by
  cases line with
  | nil => exact h
  | cons c rest =>
    refine ⟨id, ?_⟩
    simp only [Opening.after, Bool.and_eq_true, decide_eq_true_eq]
    exact And.imp_right h.last

theorem head?_significantChars_wrapped {l : Lexer} {line : List Char}
    (parts : Parts (l.glyphsTo line none)) (hmode : l.mode = .code) (number : Nat) :
    (significantChars (l.glyphsTo (wrapped parts number) none)).head? = some '_' := by
  obtain ⟨blanks, rest, hglyphs, hblanks⟩ := parts.glyphsTo_wrapped hmode number
  have hnot : ∀ g ∈ blanks, g.isSignificant = false :=
    fun g hg => Glyph.not_significant_of_isAsciiBlank (hblanks g hg)
  rw [hglyphs, significantChars_append, significantChars_eq_nil.mpr hnot, List.nil_append,
    significantChars_append]
  rfl

/-- A wrapped line is at no detached semicolon of its own. -/
theorem Wrapping.below {l : Lexer} {line : List Char} {parts : Parts (l.glyphsTo line none)}
    {number : Nat} {start inside lineEnd : List Glyph} {semicolon : Glyph}
    (w : Wrapping parts l line number start inside semicolon lineEnd) (o o' : Opening) :
    Below (o'.after (significantChars (l.glyphsTo (wrapped parts number) none))) o := by
  have hchars : significantChars (l.glyphsTo (wrapped parts number) none) =
      significantChars (start ++ inside) ++ [';'] := by
    rw [w.glyphs, significantChars_append, significantChars_append, significantChars_append,
      significantChars_eq_nil.mpr parts.indent_not, significantChars_eq_nil.mpr w.lineEnd_not,
      List.nil_append, List.append_nil, significantChars_cons, if_pos w.significant, w.char]
    rfl
  rw [hchars]
  refine ⟨fun h => ?_, fun h => ?_⟩
  · rw [Opening.after_concat_last] at h
    cases h
  · obtain ⟨hnil, -⟩ := (o'.after_concat_detached _ _).mp h
    rw [significantChars_append, w.startCode] at hnil
    cases hnil

/-- The first pass detaches no semicolon. -/
theorem isAtLine_of_instrumentedFrom {l : Lexer} {p : Progress} {o o' : Opening} {fromCode : Bool}
    {number k : Nat} {text : List Char} (hcode : fromCode = true → l.mode = .code)
    (hbelow : Below o' o)
    (h : o'.isAtLine (splitAfter (·.char = '\n')
      (l.glyphsFrom (instrumentedFrom number fromCode l p text))) k = true) :
    o.isAtLine (splitAfter (·.char = '\n') (l.glyphsFrom text)) k = true := by
  induction text using lines_induction generalizing l p o o' fromCode number k with
  | nil => cases h
  | @line line rest hline ih =>
    obtain ⟨parts⟩ := hline.nonempty_parts l
    rw [hline.splitAfter_glyphsFrom]
    have hcode' := @mode_of_getLast? l _ none (hline.cut.ne_nil (List.mem_singleton_self _))
    obtain ⟨rest', hrest'⟩ : ∃ rest', rest' = instrumentedFrom (number + 1)
        ((l.glyphsTo line none).getLast?.all Glyph.isCode) (l.run line none)
        (p.run (l.glyphsTo line none)) rest := ⟨_, rfl⟩
    have hnil : rest = [] → rest' = [] := by
      rintro rfl
      exact hrest'
    by_cases hcap : Captures parts p fromCode ((l.run line none).glyphsFrom rest)
    · have hmode := hcode hcap.fromCode
      rw [hline.instrumentedFrom_captured parts fromCode number hcap, ← hrest',
        (hline.wrapped parts number hnil).splitAfter_glyphsFrom] at h
      cases k with
      | zero =>
        rw [Opening.isAtLine, Opening.isAt, head?_significantChars_wrapped parts hmode] at h
        rw [Opening.isAtLine, Opening.isAt, hbelow.detached (by simpa using h)]
        rfl
      | succ k =>
        rw [Opening.isAtLine] at h ⊢
        by_cases hterm : parts.terminator = []
        · rw [hnil (hline.rest_eq_nil parts hterm)] at h
          cases h
        · obtain ⟨start, inside, semicolon, lineEnd, w⟩ :=
            exists_wrapping rfl hmode hcap hterm number
          rw [w.run, hrest'] at h
          exact ih hcode' (w.below _ _) h
    · have hline' : FirstLine line rest' := ⟨hline.cut, fun hne => hline.ended (mt hnil hne)⟩
      rw [hline.instrumentedFrom_kept parts fromCode number hcap, ← hrest',
        hline'.splitAfter_glyphsFrom] at h
      cases k with
      | zero => exact hbelow.isAt h
      | succ k =>
        rw [Opening.isAtLine, hrest'] at h
        exact ih hcode' (hbelow.after _) h

/-! ## The capture pass, twice -/

/-- A line of an instrumented script is captured again only at a detached semicolon. -/
theorem atDetachedSemicolon_of_recaptured {source : List Char} {k : Nat}
    (h : CapturesLine true (lines (cells (instrument source).text)) k) :
    atDetachedSemicolon source k = true := by
  rw [← walk_initial, instrument_text] at h
  exact isAtLine_of_recaptured (fun _ => rfl) (Parallel.initial _) h

theorem atDetachedSemicolon_of_instrument {source : List Char} {k : Nat}
    (h : atDetachedSemicolon (instrument source).text k = true) :
    atDetachedSemicolon source k = true := by
  rw [atDetachedSemicolon, glyphLines, glyphs, instrument_text] at h
  exact isAtLine_of_instrumentedFrom (fun _ => rfl) ⟨id, id⟩ h

end SnippetRunner.Script
