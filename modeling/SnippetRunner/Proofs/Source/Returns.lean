import SnippetRunner.Proofs.Source.Comments
import SnippetRunner.Proofs.Source.Ending

/-
  Line ends of two characters. A carriage return in front of a line feed belongs to what the lexer
  is inside of, and only behind a backslash in a string does it make a difference to the state
  behind the line feed: there it is what the backslash escapes, and the line feed ends the string.
-/
namespace SnippetRunner.Source

open SnippetRunner.Text

/-- Puts a carriage return in front of every line feed. -/
def withReturns (s : List Char) : List Char :=
  s.flatMap fun c => if c = '\n' then ['\r', '\n'] else [c]

theorem withReturns_append (a b : List Char) :
    withReturns (a ++ b) = withReturns a ++ withReturns b :=
  List.flatMap_append

theorem withReturns_cons_of_ne {c : Char} (h : c ≠ '\n') (s : List Char) :
    withReturns (c :: s) = c :: withReturns s := by
  rw [withReturns, List.flatMap_cons, if_neg h]
  rfl

theorem withReturns_of_feedless {s : List Char} (h : '\n' ∉ s) : withReturns s = s := by
  induction s with
  | nil => rfl
  | cons c s ih =>
    rw [withReturns_cons_of_ne fun e => h (e ▸ List.mem_cons_self ..),
      ih fun hmem => h (List.mem_cons_of_mem _ hmem)]

theorem withReturns_line {content : List Char} (h : '\n' ∉ content) :
    withReturns (content ++ ['\n']) = content ++ ['\r', '\n'] := by
  rw [withReturns_append, withReturns_of_feedless h]
  rfl

namespace Lexer

/-- The modes of the lexer in front of the line feeds of a text. -/
def lineEndModes (l : Lexer) : List Char → List Mode
  | [] => []
  | c :: rest =>
    if c = '\n' then l.mode :: lineEndModes (l.step c rest.head?).2 rest
    else lineEndModes (l.step c rest.head?).2 rest

/-! ## A carriage return -/

variable {l : Lexer} {next : Option Char}

/-- A carriage return is code exactly if the lexer is in code in front of it. -/
theorem step_return_code (h : l.Ready (some '\n')) :
    (l.step '\r' next).1 = .code ↔ l.mode = .code := by
  -- Where a line feed may follow in code, a string or a comment that ends with its line, so may a
  -- return: such a mode asks the same of both.
  have hplain : isPlain '\r' = true := by decide
  have hmode (hready : l.Ready (some '\r')) (hends : l.mode = .code ∨ l.mode.endsWithLine = true) :
      (l.step '\r' next).1 = .code ↔ l.mode = .code := (step_plain hready hends hplain next).2
  unfold Ready at h hmode
  cases hm : l.mode with
  | code =>
    rw [hm] at h hmode
    exact hmode h (Or.inl rfl)
  | quoted quote | quotedEscape quote | lineComment =>
    rw [hm] at h hmode
    exact hmode h (Or.inr rfl)
  | template => simp [step_template hm, stepTemplate]
  | templateEscape => simp [step_templateEscape hm]
  | blockComment => simp [step_blockComment hm]
  | substitutionOpen | commentOpen | commentClose =>
    rw [hm] at h
    exact absurd h (by simp [Mode.FitsBefore])

/-- A line feed behind a carriage return is read as without it, but for one that is escaped in a
string. -/
theorem step_return (h : l.Ready (some '\n')) (hescape : ∀ quote, l.mode ≠ .quotedEscape quote) :
    (l.step '\r' (some '\n')).2.step '\n' next = l.step '\n' next := by
  unfold Ready at h
  cases hm : l.mode with
  | code =>
    have hstep : (l.step '\r' (some '\n')).2 = l := by rw [step_code hm]; simp [stepCode]
    rw [hstep]
  | quoted quote =>
    rw [hm] at h
    have hquote : '\r' ≠ quote := by rcases h with rfl | rfl <;> decide
    have hstep : (l.step '\r' (some '\n')).2 = l := by
      rw [step_quoted hm]
      simp [stepQuoted, hquote]
    rw [hstep]
  | quotedEscape quote => exact absurd hm (hescape quote)
  | template =>
    have hstep : (l.step '\r' (some '\n')).2 = l := by rw [step_template hm]; simp [stepTemplate]
    rw [hstep]
  | templateEscape =>
    rw [step_templateEscape hm, step_templateEscape hm, step_template rfl]
    simp [stepTemplate]
  | lineComment =>
    have hstep : (l.step '\r' (some '\n')).2 = l := by simp [step_lineComment hm]
    rw [hstep]
  | blockComment =>
    have hstep : (l.step '\r' (some '\n')).2 = l := by simp [step_blockComment hm]
    rw [hstep]
  | substitutionOpen | commentOpen | commentClose =>
    rw [hm] at h
    exact absurd h (by simp [Mode.FitsBefore])

/-! ## Lines -/

/-- A part is read the same way in front of a carriage return and in front of a line feed. -/
theorem glyphsTo_return (l : Lexer) (content : List Char) :
    l.glyphsTo content (some '\r') = l.glyphsTo content (some '\n') ∧
      l.run content (some '\r') = l.run content (some '\n') := by
  cases content.eq_nil_or_concat' with
  | inl hnil =>
    rw [hnil]
    exact ⟨rfl, rfl⟩
  | inr hconcat =>
    obtain ⟨init, c, rfl⟩ := hconcat
    exact glyphsTo_eq_of_last (step_eq_of_unmarked _ c (by decide) (by decide))

theorem glyphsTo_line (l : Lexer) (content : List Char) :
    l.glyphsTo (content ++ ['\n']) none = l.glyphsTo content (some '\n') ++
      [⟨'\n', ((l.run content (some '\n')).step '\n' none).1⟩] :=
  glyphsTo_concat ..

theorem run_line (l : Lexer) (content : List Char) :
    l.run (content ++ ['\n']) none = ((l.run content (some '\n')).step '\n' none).2 :=
  run_concat ..

theorem glyphsTo_line_return (l : Lexer) (content : List Char) :
    l.glyphsTo (content ++ ['\r', '\n']) none = l.glyphsTo content (some '\n') ++
      [⟨'\r', ((l.run content (some '\n')).step '\r' (some '\n')).1⟩,
        ⟨'\n', (((l.run content (some '\n')).step '\r' (some '\n')).2.step '\n' none).1⟩] := by
  rw [glyphsTo_append, List.head?_cons, Option.some_or, (glyphsTo_return l content).1,
    (glyphsTo_return l content).2]
  rfl

theorem run_line_return (l : Lexer) (content : List Char) :
    l.run (content ++ ['\r', '\n']) none =
      (((l.run content (some '\n')).step '\r' (some '\n')).2.step '\n' none).2 := by
  rw [run_append, List.head?_cons, Option.some_or, (glyphsTo_return l content).2]
  rfl

theorem lineEndModes_of_feedless {s : List Char} (h : '\n' ∉ s) : l.lineEndModes s = [] := by
  induction s generalizing l with
  | nil => rfl
  | cons c s ih =>
    rw [lineEndModes, if_neg (List.ne_of_not_mem_cons h).symm,
      ih fun hmem => h (List.mem_cons_of_mem _ hmem)]

theorem lineEndModes_line {content : List Char} (h : '\n' ∉ content) (rest : List Char) :
    l.lineEndModes (content ++ '\n' :: rest) = (l.run content (some '\n')).mode ::
      ((l.run content (some '\n')).step '\n' rest.head?).2.lineEndModes rest := by
  induction content generalizing l with
  | nil => rw [List.nil_append, lineEndModes, if_pos rfl]; rfl
  | cons c content ih =>
    have hhead : (content ++ '\n' :: rest).head? = content.head?.or (some '\n') := by
      cases content <;> rfl
    rw [List.cons_append, lineEndModes, if_neg (List.ne_of_not_mem_cons h).symm,
      ih fun hmem => h (List.mem_cons_of_mem _ hmem), hhead]
    rfl

/-! ## What follows a line -/

theorem step_withReturns (l : Lexer) (c : Char) (rest : List Char) :
    l.step c (withReturns rest).head? = l.step c rest.head? := by
  cases rest with
  | nil => rfl
  | cons d rest =>
    by_cases hd : d = '\n'
    · rw [hd]
      exact step_eq_of_unmarked l c (by decide : (some '\r').any isMark = false)
        (by decide : (some '\n').any isMark = false)
    · rw [withReturns_cons_of_ne hd]
      rfl

/-- Outside of strings and templates only a significant character leads into one. -/
theorem step_outside {c : Char} (hready : l.Ready (some c))
    (h : l.mode = .code ∨ l.mode.inComment = true)
    (hc : Glyph.isSignificant ⟨c, (l.step c next).1⟩ = false) :
    (l.step c next).2.mode = .code ∨ (l.step c next).2.mode.inComment = true := by
  have hslight : Glyph.isSlight ⟨c, (l.step c next).1⟩ = true := by
    rw [Glyph.isSlight, hc]
    rfl
  obtain ⟨m, hm, hstep⟩ := slight_step hready hslight
  rw [hm]
  generalize l.mode = start at h hstep
  cases hstep with
  | code | lineEnd | commentClose => exact Or.inl rfl
  | slashes | comment | line | commentOpen | block | blockEnd => exact Or.inr rfl
  | quoted | quotedEnd | quotedEscape | template | templateEscape =>
    rcases h with h | h <;> cases h

/-- Whether a statement goes on behind a line is not a matter of carriage returns. -/
theorem continuesIn_withReturns {s : List Char} (hready : l.Ready s.head?)
    (h : l.mode = .code ∨ l.mode.inComment = true) :
    continuesIn (l.glyphsFrom (withReturns s)) = continuesIn (l.glyphsFrom s) := by
  induction s generalizing l with
  | nil => rfl
  | cons c rest ih =>
    have hnext : (l.step c rest.head?).2.Ready rest.head? := ready_step hready
    by_cases hc : c = '\n'
    · subst hc
      have hescape : ∀ quote, l.mode ≠ .quotedEscape quote := by
        intro quote hm
        rw [hm] at h
        rcases h with h | h <;> cases h
      have hnot (region : Region) : Glyph.isSignificant ⟨'\n', region⟩ = false :=
        Glyph.not_significant_of_isAsciiBlank rfl
      have hreturn (region : Region) : Glyph.isSignificant ⟨'\r', region⟩ = false :=
        Glyph.not_significant_of_isAsciiBlank rfl
      have htext : withReturns ('\n' :: rest) = '\r' :: '\n' :: withReturns rest := rfl
      rw [htext, glyphsFrom, glyphsFrom, glyphsFrom, List.head?_cons,
        step_return hready hescape, step_withReturns, continuesIn_cons_of_not (hreturn _),
        continuesIn_cons_of_not (hnot _), continuesIn_cons_of_not (hnot _)]
      exact ih hnext (step_outside hready h (hnot _))
    · rw [withReturns_cons_of_ne hc, glyphsFrom, glyphsFrom, step_withReturns]
      cases hsignificant : Glyph.isSignificant ⟨c, (l.step c rest.head?).1⟩ with
      | true =>
        rw [continuesIn_cons_of_significant hsignificant,
          continuesIn_cons_of_significant hsignificant]
      | false =>
        rw [continuesIn_cons_of_not hsignificant, continuesIn_cons_of_not hsignificant]
        exact ih hnext (step_outside hready h hsignificant)

end Lexer

end SnippetRunner.Source
