import SnippetRunner.Proofs.Script.Twins
import SnippetRunner.Proofs.Script.VeiledReturn

/-
  What comments say makes no difference to the instrumented script, but for a carriage return that
  a line comment takes with it. `comments_keep_instrumentation` compares two scripts that differ in
  their comments only.
-/
namespace SnippetRunner.Script

open SnippetRunner.Text SnippetRunner.Source

/-- The bytes of both scripts lie in the same regions, those outside comments are the same, and
line feeds stand at the same offsets. -/
def SameBesideComments (s t : List Char) : Prop :=
  List.Forall₂ (fun g h => g.region = h.region ∧ (g.isComment = false → g.char = h.char) ∧
    (g.char = '\n' ↔ h.char = '\n')) (byteGlyphs s) (byteGlyphs t)

theorem SameBesideComments.veil_eq {s t : List Char} (h : SameBesideComments s t) :
    inComments.veil (glyphs s) = inComments.veil (glyphs t) := by
  refine Cover.veil_eq_of_mask (h.imp fun g h hgh => ?_)
  obtain ⟨hregion, hchar, hfeed⟩ := hgh
  have hcomment : h.isComment = g.isComment := by rw [Glyph.isComment, Glyph.isComment, hregion]
  have hsame (hc : g.char = h.char) : g = h := by
    cases g
    cases h
    simp_all
  cases hg : g.isComment with
  | false => rw [hsame (hchar hg)]
  | true =>
    by_cases hn : g.char = '\n'
    · rw [hsame (hn.trans (hfeed.mp hn).symm)]
    · have hn' : h.char ≠ '\n' := fun e => hn (hfeed.mpr e)
      simp [Cover.mask, inComments, hcomment, hg, hn, hn', hregion]


/-! ## Wrapped lines -/

section

variable {l m : Lexer} {line line' rest : List Char} {p : Progress} {fromCode : Bool}

/-- The expression of a line is read as before, though a comma follows it. -/
theorem LineReading.body_eq {parts : Parts (l.glyphsTo line none)} {final : Lexer}
    {dropped rest : List Char} (h : LineReading parts l final line dropped rest)
    (hne : parts.expression ≠ []) :
    parts.body = l.glyphsTo parts.expression (some ',') ∧
      l.run parts.expression (some ',') = final := by
  obtain ⟨hsame, hstate⟩ :=
    h.reading.same hne (by simp) (by decide : (some ',').any isMark = false)
  refine ⟨?_, hstate⟩
  rw [← hsame, Parts.body, h.reading.glyphs]
  exact List.take_left' (Lexer.length_glyphsTo ..)

/-- A wrapped line is read as the call around the expression. -/
theorem LineReading.glyphsTo_wrapped {parts : Parts (l.glyphsTo line none)} {final : Lexer}
    {dropped rest : List Char} (h : LineReading parts l final line dropped rest)
    (hmode : l.mode = .code) (hne : parts.expression ≠ []) (number : Nat) :
    l.glyphsTo (wrapped parts number) none =
      parts.indent ++ (callStart.map (⟨·, .code⟩) ++ (parts.body ++ final.glyphsTo
        (callEnd number ++ ([';'] ++ parts.terminator.map Glyph.char)) none)) := by
  obtain ⟨hbody, hstate⟩ := h.body_eq hne
  have htext : wrapped parts number = parts.indent.map Glyph.char ++ (callStart ++
      (parts.expression ++ (callEnd number ++ ([';'] ++ parts.terminator.map Glyph.char)))) := by
    rw [wrapped, captureCall_eq]
    simp only [List.append_assoc]
  have hcomma : (callEnd number ++ ([';'] ++ parts.terminator.map Glyph.char)).head? =
      some ',' := rfl
  rw [htext, Lexer.glyphsTo_append, (Lexer.plain_code hmode parts.isPlain_indent _).1,
    (Lexer.plain_code hmode parts.isPlain_indent _).2, ← h.indent, Lexer.glyphsTo_append,
    (Lexer.plain_code hmode isPlain_callStart _).1,
    (Lexer.plain_code hmode isPlain_callStart _).2, Lexer.glyphsTo_append, hcomma,
    Option.some_or, hstate, hbody]

/-- How a wrapped line is read: the expression as before, and what follows it in a state that the
code of the expression tells. -/
theorem exists_glyphsTo_wrapped (parts : Parts (l.glyphsTo line none)) (hmode : l.mode = .code)
    (hne : parts.expression ≠ []) (number : Nat) :
    ∃ final, final = l.run parts.code (some ',') ∧ l.glyphsTo (wrapped parts number) none =
      parts.indent ++ (callStart.map (⟨·, .code⟩) ++ (parts.body ++ final.glyphsTo
        (callEnd number ++ ([';'] ++ parts.terminator.map Glyph.char)) none)) := by
  obtain ⟨final, dropped, rest, hread⟩ := exists_lineReading parts rfl hmode hne
  obtain ⟨hbody, hstate⟩ := hread.body_eq hne
  have hout : final.mode.inComment = false := by
    obtain ⟨hblock, hline⟩ := hread.reading.ends.not_inComment
    have hline : final.mode ≠ .lineComment := fun e => hread.feedless (hline e)
    cases hm : final.mode with
    | lineComment => exact absurd hm hline
    | commentOpen | blockComment | commentClose =>
      rw [hm] at hblock
      cases hblock
    | _ => rfl
  refine ⟨final, ?_, hread.glyphsTo_wrapped hmode hne number⟩
  have hsettled := Lexer.settled_run l parts.expression (some ',')
  rwa [hstate, Lexer.settled_of_not hout, ← hbody, Lexer.settled_of_not (by rw [hmode]; rfl)]
    at hsettled

/-- Lines that share their parts are wrapped in the same call, but for comments. -/
theorem Parts.Same.veil_wrapped {parts : Parts (l.glyphsTo line none)}
    {parts' : Parts (l.glyphsTo line' none)} (h : Same parts parts') (hmode : l.mode = .code)
    (hne : parts.expression ≠ []) (hne' : parts'.expression ≠ []) (number : Nat) :
    inComments.veil (l.glyphsTo (wrapped parts number) none) =
      inComments.veil (l.glyphsTo (wrapped parts' number) none) := by
  obtain ⟨final, hfinal, hglyphs⟩ := exists_glyphsTo_wrapped parts hmode hne number
  obtain ⟨final', hfinal', hglyphs'⟩ := exists_glyphsTo_wrapped parts' hmode hne' number
  rw [h.code, ← hfinal'] at hfinal
  rw [hglyphs, hglyphs', hfinal, h.indent, h.terminator, Cover.veil_append, Cover.veil_append,
    Cover.veil_append, h.body, ← Cover.veil_append, ← Cover.veil_append, ← Cover.veil_append]

/-- Behind a wrapped line the script is read as behind the line. -/
theorem FirstLine.glyphsFrom_captured (h : FirstLine line rest)
    (parts : Parts (l.glyphsTo line none)) (hmode : l.mode = .code)
    (hcap : Captures parts p fromCode ((l.run line none).glyphsFrom rest)) (number : Nat) :
    l.glyphsFrom (instrumentedFrom number fromCode l p (line ++ rest)) =
      l.glyphsTo (Script.wrapped parts number) none ++
        (l.run line none).glyphsFrom (instrumentedFrom (number + 1)
          ((l.glyphsTo line none).getLast?.all Glyph.isCode) (l.run line none)
          (p.run (l.glyphsTo line none)) rest) := by
  have hwrapped : FirstLine (Script.wrapped parts number) (instrumentedFrom (number + 1)
      ((l.glyphsTo line none).getLast?.all Glyph.isCode) (l.run line none)
      (p.run (l.glyphsTo line none)) rest) :=
    h.wrapped parts number (by rintro rfl; rfl)
  rw [h.instrumentedFrom_captured parts fromCode number hcap, hwrapped.glyphsFrom]
  by_cases hterm : parts.terminator = []
  · rw [h.rest_eq_nil parts hterm]
    rfl
  · obtain ⟨start, inside, semicolon, lineEnd, w⟩ := exists_wrapping rfl hmode hcap hterm number
    rw [w.run]

theorem FirstLine.glyphsFrom_kept (h : FirstLine line rest)
    (parts : Parts (l.glyphsTo line none))
    (hcap : ¬Captures parts p fromCode ((l.run line none).glyphsFrom rest)) (number : Nat) :
    l.glyphsFrom (instrumentedFrom number fromCode l p (line ++ rest)) =
      l.glyphsTo line none ++
        (l.run line none).glyphsFrom (instrumentedFrom (number + 1)
          ((l.glyphsTo line none).getLast?.all Glyph.isCode) (l.run line none)
          (p.run (l.glyphsTo line none)) rest) := by
  have hline : FirstLine line (instrumentedFrom (number + 1)
      ((l.glyphsTo line none).getLast?.all Glyph.isCode) (l.run line none)
      (p.run (l.glyphsTo line none)) rest) := by
    refine ⟨h.cut, fun hne => h.ended ?_⟩
    rintro rfl
    exact hne rfl
  rw [h.instrumentedFrom_kept parts fromCode number hcap, hline.glyphsFrom]

end

/-! ## All lines -/

/-- Whether the end of line `k` is code, with a carriage return that is comment text. -/
def returnsInComment (ls : List Line) (k : Nat) : Bool := ls[k]?.any Line.returnsInComment

section

variable {l m : Lexer} {s t line line' rest rest' : List Char} {p : Progress} {fromCode : Bool}

theorem FirstLine.returnsInComment_zero (h : FirstLine line rest)
    (parts : Parts (l.glyphsTo line none)) :
    returnsInComment (lines (walk l p (line ++ rest))) 0 = parts.returnsInComment := by
  rw [h.lines_walk, returnsInComment, List.getElem?_cons_zero, Option.any_some,
    parts.returnsInComment_eq]

theorem FirstLine.returnsInComment_succ (h : FirstLine line rest) (k : Nat) :
    returnsInComment (lines (walk l p (line ++ rest))) (k + 1) =
      returnsInComment (lines (walk (l.run line none) (p.run (l.glyphsTo line none)) rest)) k := by
  rw [h.lines_walk, returnsInComment, List.getElem?_cons_succ]
  rfl

/-- A mark of the veil is code no more than what it hides. -/
theorem getLast?_isCode_veil (gs : List Glyph) :
    (inComments.veil gs).getLast?.all Glyph.isCode = gs.getLast?.all Glyph.isCode := by
  cases gs.eq_nil_or_concat' with
  | inl hnil => rw [hnil]; rfl
  | inr hconcat =>
    obtain ⟨init, g, rfl⟩ := hconcat
    obtain ⟨more, b, hb⟩ := (inComments.seen g).eq_nil_or_concat'.resolve_left
      (Cover.seen_ne_nil _ _)
    have hregion : b.region = g.region := Cover.region_of_mem_seen (by rw [hb]; simp)
    rw [Cover.veil_append, Cover.veil_singleton, hb, ← List.append_assoc, List.getLast?_concat,
      List.getLast?_concat, Option.all_some, Option.all_some, Glyph.isCode, Glyph.isCode, hregion]

namespace Twins

theorem run_eq (h : Twins l m line line') (p : Progress) :
    p.run (l.glyphsTo line none) = p.run (m.glyphsTo line' none) := by
  rw [← p.run_veil, h.veil_glyphsTo, p.run_veil]

theorem getLast?_isCode (h : Twins l m line line') :
    (l.glyphsTo line none).getLast?.all Glyph.isCode =
      (m.glyphsTo line' none).getLast?.all Glyph.isCode := by
  rw [← getLast?_isCode_veil, h.veil_glyphsTo, getLast?_isCode_veil]

/-- The lines behind twins begin in code together. -/
theorem modes (h : Twins l m line line') (hne : line ≠ []) (hne' : line' ≠ [])
    (hcode : (l.glyphsTo line none).getLast?.all Glyph.isCode = true) :
    (l.run line none).mode = .code ∧ (m.run line' none).mode = .code :=
  ⟨mode_of_getLast? hne hcode, mode_of_getLast? hne' (h.getLast?_isCode ▸ hcode)⟩

/-- The same lines are captured, and what the expressions on them say outside comments is the
same. -/
theorem capturesLine (h : Twins l m s t)
    (hmodes : fromCode = true → l.mode = .code ∧ m.mode = .code) {k : Nat}
    (hreturn : returnsInComment (lines (walk l p s)) k = returnsInComment (lines (walk m p t)) k) :
    (CapturesLine fromCode (lines (walk l p s)) k ↔ CapturesLine fromCode (lines (walk m p t)) k) ∧
      (CapturesLine fromCode (lines (walk l p s)) k →
        (lines (walk l p s))[k]?.map Line.code = (lines (walk m p t))[k]?.map Line.code) := by
  induction s using lines_induction generalizing l m p fromCode t k with
  | nil =>
    obtain rfl := h.eq_nil
    exact ⟨Iff.rfl, fun hcap => hcap.elim⟩
  | @line line rest hline ih =>
    obtain ⟨line', rest', rfl, hline', htwins, hrest⟩ := h.exists_firstLine hline
    have hne := hline.cut.ne_nil (List.mem_singleton_self _)
    have hne' := hline'.cut.ne_nil (List.mem_singleton_self _)
    cases k with
    | zero =>
      obtain ⟨parts⟩ := hline.nonempty_parts l
      obtain ⟨parts'⟩ := hline'.nonempty_parts m
      rw [hline.returnsInComment_zero parts, hline'.returnsInComment_zero parts'] at hreturn
      rw [hline.capturesLine_zero parts, hline'.capturesLine_zero parts']
      refine ⟨htwins.captures_iff hmodes hreturn hrest.veil, fun hcap => ?_⟩
      rw [hline.lines_walk, hline'.lines_walk, List.getElem?_cons_zero, List.getElem?_cons_zero,
        Option.map_some, Option.map_some, parts.code_eq, parts'.code_eq,
        (htwins.same (hmodes hcap.fromCode) hreturn hcap).code]
    | succ k =>
      rw [hline.returnsInComment_succ, hline'.returnsInComment_succ, ← htwins.run_eq] at hreturn
      rw [hline.capturesLine_succ, hline'.capturesLine_succ, ← htwins.run_eq,
        ← htwins.getLast?_isCode, hline.lines_walk, hline'.lines_walk, List.getElem?_cons_succ,
        List.getElem?_cons_succ, ← htwins.run_eq]
      exact ih hrest (htwins.modes hne hne') hreturn

/-- The instrumented texts look the same behind the veil. -/
theorem veil_instrumentedFrom (h : Twins l m s t)
    (hmodes : fromCode = true → l.mode = .code ∧ m.mode = .code)
    (hreturn : ∀ k,
      returnsInComment (lines (walk l p s)) k = returnsInComment (lines (walk m p t)) k)
    (number : Nat) :
    inComments.veil (l.glyphsFrom (instrumentedFrom number fromCode l p s)) =
      inComments.veil (m.glyphsFrom (instrumentedFrom number fromCode m p t)) := by
  induction s using lines_induction generalizing l m p fromCode t number with
  | nil =>
    obtain rfl := h.eq_nil
    rfl
  | @line line rest hline ih =>
    obtain ⟨line', rest', rfl, hline', htwins, hrest⟩ := h.exists_firstLine hline
    obtain ⟨parts⟩ := hline.nonempty_parts l
    obtain ⟨parts'⟩ := hline'.nonempty_parts m
    have hhere := hreturn 0
    rw [hline.returnsInComment_zero parts, hline'.returnsInComment_zero parts'] at hhere
    have hlater := ih hrest
      (htwins.modes (hline.cut.ne_nil (List.mem_singleton_self _))
        (hline'.cut.ne_nil (List.mem_singleton_self _)))
      (p := p.run (l.glyphsTo line none)) (fun k => by
        have hk := hreturn (k + 1)
        rwa [hline.returnsInComment_succ, hline'.returnsInComment_succ, ← htwins.run_eq] at hk)
      (number + 1)
    have hiff := htwins.captures_iff (p := p) hmodes hhere hrest.veil
    by_cases hcap : Captures parts p fromCode ((l.run line none).glyphsFrom rest)
    · obtain ⟨hl, hm⟩ := hmodes hcap.fromCode
      rw [hline.glyphsFrom_captured parts hl hcap,
        hline'.glyphsFrom_captured parts' hm (hiff.mp hcap), Cover.veil_append, Cover.veil_append,
        hlater, htwins.run_eq, htwins.getLast?_isCode]
      obtain rfl := htwins.eq hl hm
      rw [(htwins.same ⟨hl, hm⟩ hhere hcap).veil_wrapped hl hcap.nonempty
        (hiff.mp hcap).nonempty number]
    · rw [hline.glyphsFrom_kept parts hcap, hline'.glyphsFrom_kept parts' (mt hiff.mpr hcap),
        Cover.veil_append, Cover.veil_append, hlater, htwins.veil_glyphsTo, htwins.run_eq,
        htwins.getLast?_isCode]

end Twins

end

/-! ## Scripts -/

/-- For each line of a script, whether its end is code with a carriage return that is comment
text. -/
def commentReturns (source : List Char) : List Bool :=
  (lines (cells source)).map Line.returnsInComment

/-- On line `k` an expression is captured that says `code` outside its comments. -/
def CapturesCode (source : List Char) (k : Nat) (code : List Char) : Prop :=
  ∃ line body rest, (lines (cells source))[k]? = some line ∧
    line.content = line.indent ++ (body ++ rest) ∧
    (k + 1, body.map Cell.char) ∈ (instrument source).captures ∧
    code = uncommented (body.map Cell.glyph)

theorem capturesCode_iff {source : List Char} {k : Nat} {code : List Char} :
    CapturesCode source k code ↔ CapturesLine true (lines (cells source)) k ∧
      (lines (cells source))[k]?.map Line.code = some code := by
  have hbody (line : Line) : ∃ rest,
      line.content = line.indent ++ (line.statement.take line.expression.length ++ rest) ∧
        (line.statement.take line.expression.length).map Cell.char = line.expression := by
    obtain ⟨after, hcontent, -⟩ := line.content_eq
    obtain ⟨body, dropped, hstatement, hbody, -⟩ := exists_body line.statement
    rw [← Line.expression] at hbody
    have htake : line.statement.take line.expression.length = body := by
      rw [hstatement, ← hbody, List.length_map]
      exact List.take_left
    refine ⟨dropped ++ after, ?_, by rw [htake, hbody]⟩
    rw [htake, ← List.append_assoc body, ← hstatement, ← List.append_assoc]
    exact hcontent
  constructor
  · rintro ⟨line, body, rest, hline, hcontent, hmem, rfl⟩
    obtain ⟨j, line', hline', hj, hsome⟩ := mem_captures_iff.mp hmem
    obtain rfl : k = j := by omega
    obtain rfl : line = line' := Option.some.inj (hline.symm.trans hline')
    obtain ⟨hcap, hexpression⟩ := Line.expression?_eq_some_iff.mp hsome
    refine ⟨capturesLine_iff.mpr ⟨line, hline, hcap⟩, ?_⟩
    obtain ⟨rest', hcontent', htake⟩ := hbody line
    have hsame : body = line.statement.take line.expression.length := by
      refine (List.append_inj (List.append_cancel_left (hcontent.symm.trans hcontent')) ?_).1
      have hlength := congrArg List.length (hexpression.trans htake.symm)
      rwa [List.length_map, List.length_map] at hlength
    rw [hline, Option.map_some, Line.code, ← hsame]
  · rintro ⟨hcap, hcode⟩
    obtain ⟨line, hline, hcap⟩ := capturesLine_iff.mp hcap
    obtain ⟨rest, hcontent, htake⟩ := hbody line
    rw [hline, Option.map_some] at hcode
    refine ⟨line, _, rest, hline, hcontent, ?_, (Option.some.inj hcode).symm⟩
    rw [htake]
    exact mem_captures_iff.mpr ⟨k, line, hline, rfl, Line.expression?_eq_some_iff.mpr ⟨hcap, rfl⟩⟩

theorem returnsInComment_eq_getElem? (source : List Char) (k : Nat) :
    returnsInComment (lines (cells source)) k = (commentReturns source)[k]?.any id := by
  rw [returnsInComment, commentReturns, List.getElem?_map, Option.any_map]
  rfl

/-- Where a line comment takes the carriage return with it, the line is not captured. -/
theorem not_captures_of_commentReturns {source : List Char} {k : Nat}
    (h : (commentReturns source)[k]? = some true) (e : List Char) :
    (k + 1, e) ∉ (instrument source).captures := by
  intro hmem
  obtain ⟨j, line, hline, hj, hsome⟩ := mem_captures_iff.mp hmem
  obtain rfl : k = j := by omega
  have hcode := (Line.expression?_eq_some_iff.mp hsome).1.endsInCode
  rw [commentReturns, List.getElem?_map, hline, Option.map_some, Option.some.injEq,
    Line.returnsInComment, Bool.and_eq_true] at h
  obtain ⟨c, hc, hcomment⟩ := (Option.any_eq_true ..).mp h.1
  rw [hc, Option.all_some] at hcode
  rw [Cell.isComment, Glyph.not_isComment_of_isCode hcode] at hcomment
  cases hcomment

section

variable {s t : List Char}

theorem SameBesideComments.twins (h : SameBesideComments s t) : Twins .initial .initial s t :=
  ⟨Lexer.ready_initial _, Lexer.ready_initial _, rfl, h.veil_eq⟩

/-- Scripts that differ in their comments only have the same boundaries and line depths. A line is
captured in both or in neither, and what its expression says outside comments is the same, unless
in one of them a line comment takes the carriage return of the line with it; there the line is not
captured. Without such a line the captured scripts are returned from the same line. -/
theorem comments_keep_instrumentation (s t : List Char) (h : SameBesideComments s t) :
    boundaries s = boundaries t ∧ lineDepths s = lineDepths t ∧
      (∀ k, (commentReturns s)[k]? = some true →
        ∀ e, (k + 1, e) ∉ (instrument s).captures) ∧
      (∀ k, (commentReturns s)[k]? = (commentReturns t)[k]? →
        ((∃ e, (k + 1, e) ∈ (instrument s).captures) ↔
            ∃ e, (k + 1, e) ∈ (instrument t).captures) ∧
          ∀ code, CapturesCode s k code ↔ CapturesCode t k code) ∧
      (commentReturns s = commentReturns t →
        (returnLast (instrument s).text).line = (returnLast (instrument t).text).line) := by
  have hcells : veiledCells s = veiledCells t := by rw [veiledCells_eq, veiledCells_eq, h.veil_eq]
  refine ⟨by rw [boundaries_eq_veiled, boundaries_eq_veiled, hcells],
    by rw [lineDepths_eq_veiled, lineDepths_eq_veiled, hcells],
    fun k => not_captures_of_commentReturns, fun k hk => ?_, fun hall => ?_⟩
  · have hreturn : returnsInComment (lines (walk .initial .initial s)) k =
        returnsInComment (lines (walk .initial .initial t)) k := by
      rw [walk_initial, walk_initial, returnsInComment_eq_getElem?, returnsInComment_eq_getElem?,
        hk]
    have hmodes : true = true → Lexer.initial.mode = .code ∧ Lexer.initial.mode = .code :=
      fun _ => ⟨rfl, rfl⟩
    obtain ⟨hiff, hcode⟩ := h.twins.capturesLine hmodes hreturn
    rw [walk_initial, walk_initial] at hiff hcode
    refine ⟨by rw [mem_captures_iff_capturesLine, mem_captures_iff_capturesLine, hiff], ?_⟩
    intro code
    rw [capturesCode_iff, capturesCode_iff]
    constructor
    · rintro ⟨hcap, hline⟩
      exact ⟨hiff.mp hcap, (hcode hcap).symm.trans hline⟩
    · rintro ⟨hcap, hline⟩
      exact ⟨hiff.mpr hcap, (hcode (hiff.mpr hcap)).trans hline⟩
  · refine returnLast_line_congr ?_
    rw [instrument_text, instrument_text]
    refine h.twins.veil_instrumentedFrom (fun _ => ⟨rfl, rfl⟩) (fun k => ?_) 1
    rw [walk_initial, walk_initial, returnsInComment_eq_getElem?, returnsInComment_eq_getElem?,
      hall]

end

/-- Comments of one wide character and of two narrow ones, one within a captured expression, and
carriage returns in code: two lines are captured, and the last is returned. -/
theorem comments_keep_instrumentation_wide :
    SameBesideComments "f(/* é */ 1); // ü;\nb\r\nc // (".toList
        "f(/* // */ 1); // --;\nb\r\nc // x".toList ∧
      (instrument "f(/* é */ 1); // ü;\nb\r\nc // (".toList).captures =
        [(1, "f(/* é */ 1)".toList), (2, "b".toList), (3, "c".toList)] ∧
      CapturesCode "f(/* // */ 1); // --;\nb\r\nc // x".toList 0 "f( 1)".toList ∧
      (returnLast (instrument "f(/* // */ 1); // --;\nb\r\nc // x".toList).text).line = some 3 := by
  have hsame : SameBesideComments "f(/* é */ 1); // ü;\nb\r\nc // (".toList
      "f(/* // */ 1); // --;\nb\r\nc // x".toList := by
    unfold SameBesideComments
    decide +kernel
  obtain ⟨-, -, -, hcaptures, hline⟩ := comments_keep_instrumentation _ _ hsame
  have hreturns : commentReturns "f(/* é */ 1); // ü;\nb\r\nc // (".toList =
      commentReturns "f(/* // */ 1); // --;\nb\r\nc // x".toList := by decide +kernel
  refine ⟨hsame, by decide +kernel, ((hcaptures 0 (by rw [hreturns])).2 _).mp ?_,
    (hline hreturns).symm.trans (by decide +kernel)⟩
  rw [capturesCode_iff, ← mem_captures_iff_capturesLine]
  exact ⟨⟨"f(/* é */ 1)".toList, by decide +kernel⟩, by decide +kernel⟩

/-- A carriage return behind a line comment is part of it, so the line is not captured; with
another comment in its place it is. -/
theorem comment_return_stops_capture :
    SameBesideComments "a // x\r\nb".toList "a // xx\nb".toList ∧
      (instrument "a // x\r\nb".toList).captures = [(2, "b".toList)] ∧
      (instrument "a // xx\nb".toList).captures = [(1, "a".toList), (2, "b".toList)] := by
  refine ⟨?_, by decide +kernel, by decide +kernel⟩
  unfold SameBesideComments
  decide +kernel

end SnippetRunner.Script
