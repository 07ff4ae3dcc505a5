import Mathlib.Data.List.Sort
import SnippetRunner.Proofs.Script.VeiledLine
import SnippetRunner.Proofs.Source.Returns

/-
  The capture pass on a script with line ends of two characters. The carriage return belongs to
  the comment or the string in which its line ends, and a line is not captured if its line end
  begins outside the code; so such lines are lost, and nothing else is, up to a line end that a
  backslash in a string stands before. `captures_withReturns` compares the captures of a script
  with those of the script in which every line feed has a carriage return in front of it.
-/
namespace SnippetRunner.Script

open SnippetRunner.Text SnippetRunner.Source

/-! ## Parts of a line under another line end -/

/-- The parts of a line that has no line end, with one put behind it. -/
def Parts.withTerminator {content : List Glyph} (parts : Parts content)
    (hnil : parts.terminator = []) (terminator : List Glyph) (h : ∃ feed, feed.char = '\n' ∧
      ((terminator = [feed] ∧ ∀ g ∈ content.getLast?, g.char ≠ '\r') ∨
        ∃ ret, ret.char = '\r' ∧ terminator = [ret, feed])) : Parts (content ++ terminator) :=
  have hcontent : content = parts.indent ++ (parts.statement ++ parts.after) := by
    have hjoin := parts.join
    rwa [hnil, List.append_nil] at hjoin
  { parts with
    terminator := terminator
    join := congrArg (· ++ terminator) hcontent
    terminated := by
      refine Or.inr ?_
      rwa [← hcontent] }

/-- A line that is captured under one line end is captured under another that is code, if what
follows continues it no more than before. -/
theorem Captures.of_same {gs gs' : List Glyph} {parts : Parts gs} {parts' : Parts gs'}
    {p : Progress} {fromCode : Bool} {f f' : List Glyph} (h : Captures parts p fromCode f)
    (hindent : parts'.indent = parts.indent) (hstatement : parts'.statement = parts.statement)
    (houter : (p.run gs').isOuter = (p.run gs).isOuter)
    (hcode : parts'.terminator.head?.all Glyph.isCode = true)
    (hends : parts.terminator = [] ∨ continuesIn f = false →
      parts'.terminator = [] ∨ continuesIn f' = false) : Captures parts' p fromCode f' where
  outer := h.outer
  outerAfter := houter.trans h.outerAfter
  fromCode := h.fromCode
  endsInCode := hcode
  begins := by
    rw [hstatement]
    exact h.begins
  form := by
    rw [hstatement]
    exact h.form
  single := by
    rw [hindent, hstatement]
    exact h.single
  ends := by
    rw [hstatement]
    exact h.ends.imp_right hends
  nonempty := by
    rw [Parts.expression, hstatement]
    exact h.nonempty

/-! ## A line under both line ends -/

/-- The parts of a line that ends with a line feed, and of the same line with a carriage return in
front of it. -/
structure Endings (l : Lexer) (content : List Char) where
  feedEnd : Parts (l.glyphsTo (content ++ ['\n']) none)
  returnEnd : Parts (l.glyphsTo (content ++ ['\r', '\n']) none)
  indent : returnEnd.indent = feedEnd.indent
  statement : returnEnd.statement = feedEnd.statement
  feed : feedEnd.terminator = [⟨'\n', ((l.run content (some '\n')).step '\n' none).1⟩]
  returnFeed : returnEnd.terminator =
    [⟨'\r', ((l.run content (some '\n')).step '\r' (some '\n')).1⟩,
      ⟨'\n', (((l.run content (some '\n')).step '\r' (some '\n')).2.step '\n' none).1⟩]

theorem exists_endings (l : Lexer) {content : List Char} (hfeed : '\n' ∉ content)
    (hreturn : '\r' ∉ content) : Nonempty (Endings l content) := by
  have hchar {c : Char} (hc : c ∉ content) (g : Glyph)
      (hg : g ∈ l.glyphsTo content (some '\n')) : g.char ≠ c := by
    rintro rfl
    refine hc ?_
    rw [← Lexer.map_char_glyphsTo l content (some '\n')]
    exact List.mem_map_of_mem hg
  obtain ⟨parts⟩ : Nonempty (Parts (l.glyphsTo content (some '\n'))) :=
    (Parts.exists_of_content (hchar hfeed) (Or.inl rfl)).map (Parts.cast (List.append_nil _))
  have hnil : parts.terminator = [] := by
    refine parts.terminated.resolve_right ?_
    rintro ⟨feed, hfeedChar, hterminator⟩
    have hmem : feed ∈ l.glyphsTo content (some '\n') := by
      rw [parts.join]
      refine List.mem_append_right _ ?_
      rcases hterminator with ⟨e, -⟩ | ⟨ret, -, e⟩ <;> rw [e] <;> simp
    exact hchar hfeed feed hmem hfeedChar
  refine ⟨⟨(parts.withTerminator hnil _ ⟨_, rfl, Or.inl ⟨rfl, fun g hg => ?_⟩⟩).cast
      (l.glyphsTo_line content).symm,
    (parts.withTerminator hnil _ ⟨_, rfl, Or.inr ⟨_, rfl, rfl⟩⟩).cast
      (l.glyphsTo_line_return content).symm, rfl, rfl, rfl, rfl⟩⟩
  exact hchar hreturn g (List.mem_of_getLast? hg)

namespace Endings

variable {l : Lexer} {content : List Char} (e : Endings l content) {p : Progress}
  {fromCode : Bool} {rest : List Char}

/-- Behind both line ends the lexer is in the same state, and they are both code or neither is. -/
theorem lexer_eq (hready : l.Ready (content.head?.or (some '\n')))
    (hescape : ∀ quote, (l.run content (some '\n')).mode ≠ .quotedEscape quote) :
    l.run (content ++ ['\r', '\n']) none = l.run (content ++ ['\n']) none ∧
      (l.glyphsTo (content ++ ['\r', '\n']) none).getLast?.all Glyph.isCode =
        (l.glyphsTo (content ++ ['\n']) none).getLast?.all Glyph.isCode := by
  have hstep : ((l.run content (some '\n')).step '\r' (some '\n')).2.step '\n' none =
      (l.run content (some '\n')).step '\n' none :=
    Lexer.step_return (Lexer.ready_run hready) hescape
  constructor
  · rw [l.run_line_return, l.run_line, hstep]
  · rw [l.glyphsTo_line, l.glyphsTo_line_return, hstep]
    simp

/-- A line feed behind a carriage return leaves the walk where it leaves it on its own. -/
theorem run_eq (hready : l.Ready (content.head?.or (some '\n')))
    (hescape : ∀ quote, (l.run content (some '\n')).mode ≠ .quotedEscape quote) (p : Progress) :
    p.run (l.glyphsTo (content ++ ['\r', '\n']) none) =
      p.run (l.glyphsTo (content ++ ['\n']) none) := by
  have hreturn (region : Region) (q : Progress) : q.step ⟨'\r', region⟩ = q :=
    Progress.step_of_not (Glyph.not_significant_of_isAsciiBlank rfl) (by decide : '\r' ≠ '\n')
  rw [l.glyphsTo_line, l.glyphsTo_line_return, Progress.run_append, Progress.run_append,
    Lexer.step_return (Lexer.ready_run hready) hescape, Progress.run_cons, hreturn]

/-- Where the lexer is in code in front of the line end, the line is captured under both line
ends or under neither. -/
theorem captures_iff_of_code (hready : l.Ready (content.head?.or (some '\n')))
    (hmode : (l.run content (some '\n')).mode = .code) :
    Captures e.returnEnd p fromCode
        ((l.run (content ++ ['\r', '\n']) none).glyphsFrom (withReturns rest)) ↔
      Captures e.feedEnd p fromCode ((l.run (content ++ ['\n']) none).glyphsFrom rest) := by
  have hbefore : (l.run content (some '\n')).Ready (some '\n') := Lexer.ready_run hready
  have hescape (quote : Char) : (l.run content (some '\n')).mode ≠ .quotedEscape quote := by
    rw [hmode]
    exact nofun
  have houter := congrArg Progress.isOuter (run_eq hready hescape p)
  have hreturnCode : e.returnEnd.terminator.head?.all Glyph.isCode = true := by
    rw [e.returnFeed, List.head?_cons, Option.all_some, Glyph.isCode, decide_eq_true_eq]
    exact (Lexer.step_return_code hbefore).mpr hmode
  have hstep : (l.run content (some '\n')).step '\n' none = (.code, l.run content (some '\n')) := by
    rw [Lexer.step_code hmode]
    simp [Lexer.stepCode]
  have hfeedCode : e.feedEnd.terminator.head?.all Glyph.isCode = true := by
    rw [e.feed, hstep]
    rfl
  have hcontinues : continuesIn
        ((l.run (content ++ ['\r', '\n']) none).glyphsFrom (withReturns rest)) =
      continuesIn ((l.run (content ++ ['\n']) none).glyphsFrom rest) := by
    rw [l.run_line_return, Lexer.step_return hbefore hescape, l.run_line, hstep]
    refine Lexer.continuesIn_withReturns ?_ (Or.inl hmode)
    rw [Lexer.Ready, hmode]
    trivial
  refine ⟨fun h => h.of_same e.indent.symm e.statement.symm houter.symm hfeedCode ?_,
    fun h => h.of_same e.indent e.statement houter hreturnCode ?_⟩
  · rw [hcontinues, e.returnFeed]
    exact fun hends => Or.inr (hends.resolve_left (List.cons_ne_nil _ _))
  · rw [hcontinues, e.feed]
    exact fun hends => Or.inr (hends.resolve_left (List.cons_ne_nil _ _))

/-- A line is captured under both line ends if in front of the line end the lexer is in code, and
with a carriage return only then. -/
theorem captures_iff (hready : l.Ready (content.head?.or (some '\n'))) :
    Captures e.returnEnd p fromCode
        ((l.run (content ++ ['\r', '\n']) none).glyphsFrom (withReturns rest)) ↔
      Captures e.feedEnd p fromCode ((l.run (content ++ ['\n']) none).glyphsFrom rest) ∧
        (l.run content (some '\n')).mode = .code := by
  constructor
  · intro h
    have hcode := h.endsInCode
    rw [e.returnFeed, List.head?_cons, Option.all_some, Glyph.isCode, decide_eq_true_eq] at hcode
    have hmode := (Lexer.step_return_code (Lexer.ready_run hready)).mp hcode
    exact ⟨(e.captures_iff_of_code hready hmode).mp h, hmode⟩
  · rintro ⟨h, hmode⟩
    exact (e.captures_iff_of_code hready hmode).mpr h

end Endings

/-! ## All lines -/

section

variable {l : Lexer} {p : Progress} {line rest content : List Char} {fromCode : Bool} {k : Nat}

/-- A first line is the whole text, or it ends with its only line feed. -/
theorem FirstLine.feedless_or (h : FirstLine line rest) :
    ('\n' ∉ line ∧ rest = []) ∨ ∃ content, line = content ++ ['\n'] ∧ '\n' ∉ content := by
  by_cases hmem : '\n' ∈ line
  · right
    cases h.cut with
    | unclosed _ hu => exact absurd (hu _ hmem) (by decide)
    | @closed init feed _ hu hm _ =>
      obtain rfl : feed = '\n' := of_decide_eq_true hm
      exact ⟨init, rfl, fun hinit => absurd (hu _ hinit) (by decide)⟩
  · left
    refine ⟨hmem, ?_⟩
    by_contra hne
    exact hmem (List.mem_of_getLast? (h.ended hne))

theorem firstLine_of_feed (h : '\n' ∉ content) (rest : List Char) :
    FirstLine (content ++ ['\n']) rest where
  cut := .closed (fun _ hc => decide_eq_false fun e => h (e ▸ hc)) rfl .nil
  ended _ := List.getLast?_concat

theorem firstLine_of_return (h : '\n' ∉ content) (rest : List Char) :
    FirstLine (content ++ ['\r', '\n']) rest := by
  have hreturn : '\n' ∉ content ++ ['\r'] := by simpa using h
  have hjoin : content ++ ['\r', '\n'] = (content ++ ['\r']) ++ ['\n'] := by simp
  rw [hjoin]
  exact firstLine_of_feed hreturn rest

theorem lineEndModes_append (hcontent : '\n' ∉ content) (rest : List Char) :
    l.lineEndModes (content ++ ['\n'] ++ rest) = (l.run content (some '\n')).mode ::
      (l.run (content ++ ['\n']) none).lineEndModes rest := by
  rw [List.append_assoc, List.singleton_append, Lexer.lineEndModes_line hcontent, l.run_line,
    step_newline_eq _ rest.head? none]

/-- The expression of line `k`. -/
def expressionAt (ls : List Line) (k : Nat) : Option (List Char) := ls[k]?.map Line.expression

theorem FirstLine.expressionAt_zero (h : FirstLine line rest)
    (parts : Parts (l.glyphsTo line none)) :
    expressionAt (lines (walk l p (line ++ rest))) 0 = some parts.expression := by
  rw [h.lines_walk, expressionAt, List.getElem?_cons_zero, Option.map_some, parts.expression_eq]

theorem FirstLine.expressionAt_succ (h : FirstLine line rest) (k : Nat) :
    expressionAt (lines (walk l p (line ++ rest))) (k + 1) =
      expressionAt (lines (walk (l.run line none) (p.run (l.glyphsTo line none)) rest)) k := by
  rw [h.lines_walk, expressionAt, List.getElem?_cons_succ]
  rfl

/-- Up to a line end that a string escapes the lines are the same under both line ends, and under
the longer one those are captured of the captured lines in front of whose end the lexer is in
code. -/
theorem capturesLine_withReturns {text : List Char} (hready : l.Ready text.head?)
    (hreturn : '\r' ∉ text)
    (hearlier : ∀ j < k, ∀ quote, (l.lineEndModes text)[j]? ≠ some (.quotedEscape quote)) :
    (CapturesLine fromCode (lines (walk l p (withReturns text))) k ↔
      CapturesLine fromCode (lines (walk l p text)) k ∧
        ∀ mode ∈ (l.lineEndModes text)[k]?, mode = .code) ∧
      expressionAt (lines (walk l p (withReturns text))) k =
        expressionAt (lines (walk l p text)) k := by
  induction text using lines_induction generalizing l p fromCode k with
  | nil => exact ⟨by simp [Lexer.lineEndModes, withReturns], rfl⟩
  | @line line rest hline ih =>
    rcases hline.feedless_or with ⟨hfeedless, rfl⟩ | ⟨content, rfl, hcontent⟩
    · -- the last line has no line end
      rw [List.append_nil, withReturns_of_feedless hfeedless,
        Lexer.lineEndModes_of_feedless hfeedless]
      exact ⟨by simp, rfl⟩
    · have hcontentReturn : '\r' ∉ content := fun hmem =>
        hreturn (List.mem_append_left _ (List.mem_append_left _ hmem))
      have hrestReturn : '\r' ∉ rest := fun hmem => hreturn (List.mem_append_right _ hmem)
      have hstart : l.Ready (content.head?.or (some '\n')) := by
        cases content <;> exact hready
      have hlong := firstLine_of_return hcontent (withReturns rest)
      obtain ⟨e⟩ := exists_endings l hcontent hcontentReturn
      rw [withReturns_append, withReturns_line hcontent, lineEndModes_append hcontent]
      cases k with
      | zero =>
        rw [hlong.capturesLine_zero e.returnEnd, hline.capturesLine_zero e.feedEnd,
          hlong.expressionAt_zero e.returnEnd, hline.expressionAt_zero e.feedEnd,
          e.captures_iff hstart]
        refine ⟨by simp, ?_⟩
        rw [Parts.expression, e.statement]
        rfl
      | succ k =>
        have hescape (quote : Char) : (l.run content (some '\n')).mode ≠ .quotedEscape quote := by
          have hfirst := hearlier 0 (Nat.succ_pos k) quote
          rw [lineEndModes_append hcontent] at hfirst
          simpa using hfirst
        obtain ⟨hlexer, hcode⟩ := Endings.lexer_eq hstart hescape
        rw [hlong.capturesLine_succ, hline.capturesLine_succ, hlong.expressionAt_succ,
          hline.expressionAt_succ, hlexer, hcode, Endings.run_eq hstart hescape,
          List.getElem?_cons_succ]
        refine ih ?_ hrestReturn fun j hj quote => ?_
        · rw [l.run_line]
          exact Lexer.ready_step (Lexer.ready_run hstart)
        · have hlater := hearlier (j + 1) (Nat.succ_lt_succ hj) quote
          rwa [lineEndModes_append hcontent, List.getElem?_cons_succ] at hlater

/-- In front of the end of a captured line the lexer is in code, or in a line comment or a string
that ends with the line. -/
theorem mode_of_capturesLine {text : List Char} (hreturn : '\r' ∉ text)
    (h : CapturesLine fromCode (lines (walk l p text)) k) :
    ∀ mode ∈ (l.lineEndModes text)[k]?,
      mode = .code ∨ mode = .lineComment ∨ ∃ quote, mode = .quoted quote := by
  induction text using lines_induction generalizing l p fromCode k with
  | nil => exact h.elim
  | @line line rest hline ih =>
    rcases hline.feedless_or with ⟨hfeedless, rfl⟩ | ⟨content, rfl, hcontent⟩
    · rw [List.append_nil, Lexer.lineEndModes_of_feedless hfeedless]
      simp
    · have hcontentReturn : '\r' ∉ content := fun hmem =>
        hreturn (List.mem_append_left _ (List.mem_append_left _ hmem))
      have hrestReturn : '\r' ∉ rest := fun hmem => hreturn (List.mem_append_right _ hmem)
      rw [lineEndModes_append hcontent]
      cases k with
      | zero =>
        obtain ⟨e⟩ := exists_endings l hcontent hcontentReturn
        have hcode := ((hline.capturesLine_zero e.feedEnd fromCode).mp h).endsInCode
        rw [e.feed, List.head?_cons, Option.all_some, Glyph.isCode, decide_eq_true_eq] at hcode
        intro mode hmode
        obtain rfl := Option.some.inj hmode
        exact (Lexer.mode_of_code hcode).imp_right And.right
      | succ k =>
        rw [hline.capturesLine_succ] at h
        exact ih hrestReturn h

end

/-! ## Scripts -/

theorem mem_captures_iff_expressionAt {source : List Char} {k : Nat} {e : List Char} :
    (k + 1, e) ∈ (instrument source).captures ↔
      CapturesLine true (lines (cells source)) k ∧
        expressionAt (lines (cells source)) k = some e := by
  have hmem {e : List Char} (h : (k + 1, e) ∈ (instrument source).captures) :
      expressionAt (lines (cells source)) k = some e := by
    obtain ⟨j, line, hline, hj, hcaptured⟩ := mem_captures_iff.mp h
    obtain rfl : k = j := by omega
    rw [expressionAt, hline, (Line.expression?_eq_some_iff.mp hcaptured).2]
    rfl
  refine ⟨fun h => ⟨mem_captures_iff_capturesLine.mp ⟨e, h⟩, hmem h⟩, fun ⟨hcap, he⟩ => ?_⟩
  obtain ⟨e', he'⟩ := mem_captures_iff_capturesLine.mpr hcap
  obtain rfl := Option.some.inj ((hmem he').symm.trans he)
  exact he'

/-- Captures are entered by line number, so two lists of them with the same entries are equal. -/
theorem captures_eq_of_mem_iff {s t : List Char}
    (h : ∀ k e, (k + 1, e) ∈ (instrument s).captures ↔ (k + 1, e) ∈ (instrument t).captures) :
    (instrument s).captures = (instrument t).captures := by
  let earlier (a b : Nat × List Char) : Prop := a.1 < b.1
  have hirrefl : Std.Irrefl earlier := ⟨fun a => Nat.lt_irrefl a.1⟩
  have hantisymm : Std.Antisymm earlier := ⟨fun _ _ hab hba => absurd hba (Nat.lt_asymm hab)⟩
  have hsorted (u : List Char) : (instrument u).captures.Pairwise earlier :=
    List.pairwise_map.mp (pairwise_captured _ _ _)
  refine (hsorted s).eq_of_mem_iff (hsorted t) fun ⟨number, e⟩ => ?_
  constructor <;>
  · intro hmem
    obtain ⟨k, -, -, rfl, -⟩ := mem_captures_iff.mp hmem
    first | exact (h k e).mp hmem | exact (h k e).mpr hmem

/-- Carriage returns and captures. Up to a line end that a backslash in a string escapes, a line is
captured with carriage returns exactly if it is captured without and the lexer is in code in front
of its line end; its expression is the same. Without carriage returns a line is also captured that
ends in a line comment or in a string that was never closed. Where every line ends in something
else, the captures are the same. -/
theorem captures_withReturns {source : List Char} (hsource : '\r' ∉ source) :
    (∀ k e, (∀ j < k, ∀ quote,
        (Lexer.initial.lineEndModes source)[j]? ≠ some (.quotedEscape quote)) →
      ((k + 1, e) ∈ (instrument (withReturns source)).captures ↔
        (k + 1, e) ∈ (instrument source).captures ∧
          ∀ mode ∈ (Lexer.initial.lineEndModes source)[k]?, mode = .code)) ∧
      (∀ k e, (k + 1, e) ∈ (instrument source).captures →
        ∀ mode ∈ (Lexer.initial.lineEndModes source)[k]?,
          mode = .code ∨ mode = .lineComment ∨ ∃ quote, mode = .quoted quote) ∧
      ((∀ mode ∈ Lexer.initial.lineEndModes source, mode.endsWithLine = false) →
        (instrument (withReturns source)).captures = (instrument source).captures) := by
  have hsame : ∀ k e, (∀ j < k, ∀ quote,
        (Lexer.initial.lineEndModes source)[j]? ≠ some (.quotedEscape quote)) →
      ((k + 1, e) ∈ (instrument (withReturns source)).captures ↔
        (k + 1, e) ∈ (instrument source).captures ∧
          ∀ mode ∈ (Lexer.initial.lineEndModes source)[k]?, mode = .code) := by
    intro k e hearlier
    obtain ⟨hcaptures, hexpression⟩ := @capturesLine_withReturns .initial .initial true k source
      (Lexer.ready_initial _) hsource hearlier
    rw [mem_captures_iff_expressionAt, mem_captures_iff_expressionAt, ← walk_initial,
      ← walk_initial, hcaptures, hexpression, and_right_comm]
  have hmodes : ∀ k e, (k + 1, e) ∈ (instrument source).captures →
      ∀ mode ∈ (Lexer.initial.lineEndModes source)[k]?,
        mode = .code ∨ mode = .lineComment ∨ ∃ quote, mode = .quoted quote := by
    intro k e he
    have hcap := mem_captures_iff_capturesLine.mp ⟨e, he⟩
    rw [← walk_initial] at hcap
    exact mode_of_capturesLine hsource hcap
  refine ⟨hsame, hmodes, fun hends => captures_eq_of_mem_iff fun k e => ?_⟩
  have hescape (j : Nat) (quote : Char) :
      (Lexer.initial.lineEndModes source)[j]? ≠ some (.quotedEscape quote) := by
    intro hmode
    have hend := hends _ (List.mem_of_getElem? hmode)
    cases hend
  rw [hsame k e fun j _ quote => hescape j quote]
  refine ⟨And.left, fun he => ⟨he, fun mode hmode => ?_⟩⟩
  have hend := hends mode (List.mem_of_getElem? hmode)
  rcases hmodes k e he mode hmode with rfl | rfl | ⟨quote, rfl⟩
  · rfl
  · cases hend
  · cases hend

theorem captures_withReturns_two_lines :
    '\r' ∉ "a;\n'b'\n".toList ∧
      (instrument (withReturns "a;\n'b'\n".toList)).captures =
        (instrument "a;\n'b'\n".toList).captures :=
  ⟨by decide, (captures_withReturns (by decide)).2.2 (by decide)⟩

/-- A line that ends in a line comment is lost, and so is one that ends in a string that was never
closed. A string that goes on in the next line ends with its first, so what follows in that line
is captured. -/
theorem captures_depend_on_returns :
    (instrument "a; // note\nb;".toList).captures = [(1, "a".toList), (2, "b".toList)] ∧
      (instrument (withReturns "a; // note\nb;".toList)).captures = [(2, "b".toList)] ∧
      (instrument "'a\nb".toList).captures = [(1, "'a".toList), (2, "b".toList)] ∧
      (instrument (withReturns "'a\nb".toList)).captures = [(2, "b".toList)] ∧
      (instrument "'a\\\nb'".toList).captures = [] ∧
      (instrument (withReturns "'a\\\nb'".toList)).captures = [(2, "b'".toList)] := by
  decide +kernel

end SnippetRunner.Script
