import Mathlib.Data.List.Basic
import SnippetRunner.Source.Region

/-
  The lexer on part of a text. `glyphsTo` and `run` read a part whose following character is
  known, so the glyphs of a text are those of its parts. `Ready` is what holds of every state
  that the lexer reaches: the mode for the second character of a mark is entered only in front
  of that character. Hence a line end is code exactly where the next line begins in code. Outside of
  templates the lexer stays in code over text without marks, and over whole strings (`IsPlain`).
-/
namespace SnippetRunner.Source

namespace Lexer

/-- The glyphs of `s`, where `next` follows it. -/
def glyphsTo (l : Lexer) : List Char → Option Char → List Glyph
  | [], _ => []
  | c :: rest, next =>
    ⟨c, (l.step c (rest.head?.or next)).1⟩
      :: glyphsTo (l.step c (rest.head?.or next)).2 rest next

/-- The state after `s`, where `next` follows it. -/
def run (l : Lexer) : List Char → Option Char → Lexer
  | [], _ => l
  | c :: rest, next => run (l.step c (rest.head?.or next)).2 rest next

theorem head?_append_or (a b : List Char) (next : Option Char) :
    (a ++ b).head?.or next = a.head?.or (b.head?.or next) := by
  cases a <;> simp

theorem map_char_glyphsTo (l : Lexer) (s : List Char) (next : Option Char) :
    (l.glyphsTo s next).map Glyph.char = s := by
  induction s generalizing l with
  | nil => rfl
  | cons c rest ih => simp [glyphsTo, ih]

theorem length_glyphsTo (l : Lexer) (s : List Char) (next : Option Char) :
    (l.glyphsTo s next).length = s.length := by
  rw [← List.length_map Glyph.char, map_char_glyphsTo]

theorem glyphsTo_append (l : Lexer) (a b : List Char) (next : Option Char) :
    l.glyphsTo (a ++ b) next =
      l.glyphsTo a (b.head?.or next) ++ (l.run a (b.head?.or next)).glyphsTo b next := by
  induction a generalizing l with
  | nil => rfl
  | cons c a ih => simp only [List.cons_append, glyphsTo, run, head?_append_or, ih]

/-- Where the glyphs of a text are cut, the text is, and its parts are read one after the other. -/
theorem glyphsTo_eq_append {l : Lexer} {text : List Char} {next : Option Char}
    {gs rest : List Glyph} (h : l.glyphsTo text next = gs ++ rest) :
    text = gs.map Glyph.char ++ rest.map Glyph.char ∧
      gs = l.glyphsTo (gs.map Glyph.char) ((rest.map Glyph.char).head?.or next) ∧
      rest = (l.run (gs.map Glyph.char) ((rest.map Glyph.char).head?.or next)).glyphsTo
        (rest.map Glyph.char) next := by
  have htext : text = gs.map Glyph.char ++ rest.map Glyph.char := by
    rw [← map_char_glyphsTo l text next, h, List.map_append]
  rw [htext, glyphsTo_append] at h
  obtain ⟨hgs, hrest⟩ := List.append_inj h (by rw [length_glyphsTo, List.length_map])
  exact ⟨htext, hgs.symm, hrest.symm⟩

theorem run_append (l : Lexer) (a b : List Char) (next : Option Char) :
    l.run (a ++ b) next = (l.run a (b.head?.or next)).run b next := by
  induction a generalizing l with
  | nil => rfl
  | cons c a ih => simp only [List.cons_append, run, head?_append_or, ih]

theorem glyphsFrom_append (l : Lexer) (a b : List Char) :
    l.glyphsFrom (a ++ b) = l.glyphsTo a b.head? ++ (l.run a b.head?).glyphsFrom b := by
  induction a generalizing l with
  | nil => rfl
  | cons c a ih => simp only [List.cons_append, glyphsFrom, glyphsTo, run, List.head?_append, ih]

theorem glyphsFrom_eq_glyphsTo (l : Lexer) (s : List Char) :
    l.glyphsFrom s = l.glyphsTo s none := by
  have h := glyphsFrom_append l s []
  simpa [glyphsFrom] using h

theorem run_concat (l : Lexer) (s : List Char) (c : Char) (next : Option Char) :
    l.run (s ++ [c]) next = ((l.run s (some c)).step c next).2 := by
  rw [run_append]
  rfl

theorem glyphsTo_concat (l : Lexer) (s : List Char) (c : Char) (next : Option Char) :
    l.glyphsTo (s ++ [c]) next =
      l.glyphsTo s (some c) ++ [⟨c, ((l.run s (some c)).step c next).1⟩] := by
  rw [glyphsTo_append]
  rfl

end Lexer

/-! ## Steps by mode -/

namespace Lexer

variable {l : Lexer} {quote c : Char} {next : Option Char}

theorem step_code (h : l.mode = .code) : l.step c next = l.stepCode c next := by
  rw [step, h]

theorem step_quoted (h : l.mode = .quoted quote) : l.step c next = l.stepQuoted quote c := by
  rw [step, h]

theorem step_quotedEscape (h : l.mode = .quotedEscape quote) :
    l.step c next = (.string, { l with mode := .quoted quote }) := by
  rw [step, h]

theorem step_template (h : l.mode = .template) : l.step c next = l.stepTemplate c next := by
  rw [step, h]

theorem step_templateEscape (h : l.mode = .templateEscape) :
    l.step c next = (.template, { l with mode := .template }) := by
  rw [step, h]

theorem step_substitutionOpen (h : l.mode = .substitutionOpen) :
    l.step c next = (.template, ⟨.code, l.braces :: l.substitutions, l.braces⟩) := by
  rw [step, h]

theorem step_lineComment (h : l.mode = .lineComment) :
    l.step c next =
      if c = '\n' then (.code, { l with mode := .code }) else (.lineComment, l) := by
  rw [step, h]

theorem step_commentOpen (h : l.mode = .commentOpen) :
    l.step c next = (.blockComment, { l with mode := .blockComment }) := by
  rw [step, h]

theorem step_blockComment (h : l.mode = .blockComment) :
    l.step c next = if c = '*' && next = some '/' then
      (.blockComment, { l with mode := .commentClose }) else (.blockComment, l) := by
  rw [step, h]

theorem step_commentClose (h : l.mode = .commentClose) :
    l.step c next = (.blockComment, { l with mode := .code }) := by
  rw [step, h]

/-- A closing brace leads back into the template whose expression began at this depth; otherwise
it only counts. -/
theorem closeBrace_cases (l : Lexer) :
    (∃ outer, l.substitutions = l.braces :: outer ∧
        l.closeBrace = (.template, ⟨.template, outer, l.braces⟩)) ∨
      l.closeBrace = (.code, { l with braces := l.braces - 1 }) := by
  unfold closeBrace
  split
  · next depth outer hdepths =>
    split
    · next hd => exact Or.inl ⟨outer, by rw [hdepths, hd], rfl⟩
    · exact Or.inr rfl
  · exact Or.inr rfl

theorem closeBrace_not_comment (l : Lexer) : l.closeBrace.1.isComment = false := by
  rcases l.closeBrace_cases with ⟨outer, -, e⟩ | e <;> rw [e] <;> rfl

end Lexer

/-! ## Reachable states -/

/-- What holds of a reachable mode in front of `next`. -/
def Mode.FitsBefore (next : Option Char) : Mode → Prop
  | .substitutionOpen => next = some '{'
  | .commentOpen => next = some '*'
  | .commentClose => next = some '/'
  | .quoted quote | .quotedEscape quote => quote = '\'' ∨ quote = '"'
  | _ => True

namespace Lexer

/-- What holds of a reachable state in front of `next`. -/
def Ready (l : Lexer) (next : Option Char) : Prop := l.mode.FitsBefore next

theorem ready_initial (next : Option Char) : initial.Ready next := trivial

theorem ready_closeBrace {l : Lexer} {next : Option Char} (hm : l.mode = .code) :
    l.closeBrace.2.Ready next := by
  rcases l.closeBrace_cases with ⟨outer, -, e⟩ | e
  · rw [e]
    trivial
  · rw [e]
    simp [Ready, hm, Mode.FitsBefore]

theorem ready_stepCode {l : Lexer} {c : Char} {next : Option Char} (hm : l.mode = .code) :
    (l.stepCode c next).2.Ready next := by
  unfold stepCode
  split
  · trivial
  split
  · next h =>
    simp only [Bool.and_eq_true, decide_eq_true_eq] at h
    exact h.2
  split
  · next h => simpa [Ready, Mode.FitsBefore] using h
  split
  · trivial
  split
  · simp [Ready, hm, Mode.FitsBefore]
  split
  · exact ready_closeBrace hm
  · simp [Ready, hm, Mode.FitsBefore]

theorem ready_stepQuoted {l : Lexer} {quote c : Char} {next : Option Char}
    (hm : l.mode = .quoted quote) (h : quote = '\'' ∨ quote = '"') :
    (l.stepQuoted quote c).2.Ready next := by
  unfold stepQuoted
  split
  · exact h
  split
  · trivial
  split
  · trivial
  · simpa [Ready, hm, Mode.FitsBefore] using h

theorem ready_stepTemplate {l : Lexer} {c : Char} {next : Option Char}
    (hm : l.mode = .template) : (l.stepTemplate c next).2.Ready next := by
  unfold stepTemplate
  split
  · trivial
  split
  · trivial
  split
  · next h =>
    simp only [Bool.and_eq_true, decide_eq_true_eq] at h
    exact h.2
  · simp [Ready, hm, Mode.FitsBefore]

theorem ready_step {l : Lexer} {c : Char} {next : Option Char} (h : l.Ready (some c)) :
    (l.step c next).2.Ready next := by
  unfold Ready at h
  cases hm : l.mode with
  | code =>
    rw [step_code hm]
    exact ready_stepCode hm
  | quoted quote =>
    rw [hm] at h
    rw [step_quoted hm]
    exact ready_stepQuoted hm h
  | quotedEscape quote =>
    rw [hm] at h
    rw [step_quotedEscape hm]
    exact h
  | template =>
    rw [step_template hm]
    exact ready_stepTemplate hm
  | templateEscape =>
    rw [step_templateEscape hm]
    trivial
  | substitutionOpen =>
    rw [step_substitutionOpen hm]
    trivial
  | lineComment =>
    rw [step_lineComment hm]
    split
    · trivial
    · simp [Ready, hm, Mode.FitsBefore]
  | commentOpen =>
    rw [step_commentOpen hm]
    trivial
  | blockComment =>
    rw [step_blockComment hm]
    split
    · next hc =>
      simp only [Bool.and_eq_true, decide_eq_true_eq] at hc
      exact hc.2
    · simp [Ready, hm, Mode.FitsBefore]
  | commentClose =>
    rw [step_commentClose hm]
    trivial

theorem ready_run {l : Lexer} {s : List Char} {next : Option Char}
    (h : l.Ready (s.head?.or next)) : (l.run s next).Ready next := by
  induction s generalizing l with
  | nil => exact h
  | cons c rest ih => exact ih (ready_step h)

theorem closeBrace_mode_of_code {l : Lexer} (hm : l.mode = .code)
    (h : l.closeBrace.1 = .code) : l.closeBrace.2.mode = .code := by
  rcases l.closeBrace_cases with ⟨outer, -, e⟩ | e
  · rw [e] at h
    cases h
  · rw [e]
    exact hm

/-- After a character of the code the lexer is in code. -/
theorem mode_of_region_code {l : Lexer} {c : Char} {next : Option Char}
    (h : (l.step c next).1 = .code) : (l.step c next).2.mode = .code := by
  cases hm : l.mode with
  | code =>
    rw [step_code hm] at h ⊢
    unfold stepCode at h ⊢
    split_ifs at h ⊢
    · exact hm
    · exact closeBrace_mode_of_code hm h
    · exact hm
  | quoted quote =>
    rw [step_quoted hm] at h ⊢
    unfold stepQuoted at h ⊢
    split_ifs at h ⊢
    rfl
  | quotedEscape quote => simp [step_quotedEscape hm] at h
  | template =>
    rw [step_template hm] at h
    unfold stepTemplate at h
    split_ifs at h
  | templateEscape => simp [step_templateEscape hm] at h
  | substitutionOpen => simp [step_substitutionOpen hm] at h
  | lineComment =>
    rw [step_lineComment hm] at h ⊢
    split_ifs at h ⊢
    rfl
  | commentOpen => simp [step_commentOpen hm] at h
  | blockComment =>
    rw [step_blockComment hm] at h
    split_ifs at h
  | commentClose => simp [step_commentClose hm] at h

/-- In front of a code character the lexer is in code, or the character is a line feed, which ends
a line comment or a string. -/
theorem mode_of_code {l : Lexer} {c : Char} {next : Option Char}
    (h : (l.step c next).1 = .code) :
    l.mode = .code ∨ c = '\n' ∧ (l.mode = .lineComment ∨ ∃ quote, l.mode = .quoted quote) := by
  cases hm : l.mode with
  | code => exact Or.inl rfl
  | quoted quote =>
    rw [step_quoted hm] at h
    unfold stepQuoted at h
    split_ifs at h with hescape hquote hfeed
    exact Or.inr ⟨hfeed, Or.inr ⟨quote, rfl⟩⟩
  | quotedEscape quote => simp [step_quotedEscape hm] at h
  | template =>
    rw [step_template hm] at h
    unfold stepTemplate at h
    split_ifs at h
  | templateEscape => simp [step_templateEscape hm] at h
  | substitutionOpen => simp [step_substitutionOpen hm] at h
  | lineComment =>
    rw [step_lineComment hm] at h
    split_ifs at h with hfeed
    exact Or.inr ⟨hfeed, Or.inl rfl⟩
  | commentOpen => simp [step_commentOpen hm] at h
  | blockComment =>
    rw [step_blockComment hm] at h
    split_ifs at h
  | commentClose => simp [step_commentClose hm] at h

/-- A line end is code exactly if the next line begins in code. -/
theorem step_newline {l : Lexer} {next : Option Char} (h : l.Ready (some '\n')) :
    (l.step '\n' next).1 = .code ↔ (l.step '\n' next).2.mode = .code := by
  unfold Ready at h
  cases hm : l.mode with
  | code => simp [step_code hm, stepCode, hm]
  | quoted quote =>
    rw [hm] at h
    have hq : '\n' ≠ quote := by rcases h with rfl | rfl <;> decide
    simp [step_quoted hm, stepQuoted, hq]
  | quotedEscape quote => simp [step_quotedEscape hm]
  | template => simp [step_template hm, stepTemplate, hm]
  | templateEscape => simp [step_templateEscape hm]
  | substitutionOpen =>
    rw [hm] at h
    exact absurd h (by simp [Mode.FitsBefore])
  | lineComment => simp [step_lineComment hm]
  | commentOpen => simp [step_commentOpen hm]
  | blockComment => simp [step_blockComment hm, hm]
  | commentClose =>
    rw [hm] at h
    exact absurd h (by simp [Mode.FitsBefore])

/-! ## Plain code -/

/-- The lexer is in code, outside of all templates. -/
structure IsPlain (l : Lexer) : Prop where
  mode : l.mode = .code
  substitutions : l.substitutions = []

/-- Characters that open no string, template or comment. -/
def isPlainChar (c : Char) : Bool := !(c = '/' || c = '\'' || c = '"' || c = '\x60')

section Plain

variable {l : Lexer} {c : Char} {next : Option Char}

theorem isPlain_initial : initial.IsPlain := ⟨rfl, rfl⟩

theorem IsPlain.closeBrace (h : l.IsPlain) :
    l.closeBrace = (.code, { l with braces := l.braces - 1 }) := by
  unfold Lexer.closeBrace
  rw [h.substitutions]

theorem IsPlain.step (h : l.IsPlain) (hc : isPlainChar c = true) :
    (l.step c next).1 = .code ∧ (l.step c next).2.IsPlain := by
  simp only [isPlainChar, Bool.not_eq_true', Bool.or_eq_false_iff, decide_eq_false_iff_not] at hc
  obtain ⟨⟨⟨hslash, hsingle⟩, hdouble⟩, htemplate⟩ := hc
  rw [step_code h.mode]
  unfold stepCode
  simp only [hslash, hsingle, hdouble, htemplate, decide_false, Bool.false_and, Bool.or_self,
    Bool.false_eq_true, if_false]
  split
  · exact ⟨rfl, h.mode, h.substitutions⟩
  split
  · rw [h.closeBrace]
    exact ⟨rfl, h.mode, h.substitutions⟩
  · exact ⟨rfl, h⟩

theorem IsPlain.run (h : l.IsPlain) {s : List Char} (hs : s.all isPlainChar = true)
    (next : Option Char) : (l.run s next).IsPlain := by
  induction s generalizing l with
  | nil => exact h
  | cons c s ih =>
    rw [List.all_cons, Bool.and_eq_true] at hs
    exact ih (h.step hs.1).2 hs.2

theorem IsPlain.glyphsTo_eq (h : l.IsPlain) {s : List Char} (hs : s.all isPlainChar = true)
    (next : Option Char) : l.glyphsTo s next = s.map (⟨·, .code⟩) := by
  induction s generalizing l with
  | nil => rfl
  | cons c s ih =>
    rw [List.all_cons, Bool.and_eq_true] at hs
    obtain ⟨hregion, hplain⟩ : (l.step c (s.head?.or next)).1 = .code ∧
        (l.step c (s.head?.or next)).2.IsPlain := h.step hs.1
    rw [Lexer.glyphsTo, ih hplain hs.2, hregion, List.map_cons]

/-- Within a string up to its end. -/
theorem run_quoted {quote : Char} (hl : l.mode = .quoted quote) {s : List Char}
    (hs : ∀ c ∈ s, c ≠ quote ∧ c ≠ '\\' ∧ c ≠ '\n') : l.run s next = l := by
  induction s with
  | nil => rfl
  | cons c s ih =>
    obtain ⟨hquote, hescape, hline⟩ := hs c (List.mem_cons_self ..)
    have hstep : (l.step c (s.head?.or next)).2 = l := by
      rw [step_quoted hl, stepQuoted, if_neg hescape, if_neg hquote, if_neg hline]
    rw [run, hstep]
    exact ih fun d hd => hs d (List.mem_cons_of_mem _ hd)

/-- A string without escapes and line ends. -/
theorem IsPlain.run_string (h : l.IsPlain) {quote : Char} (hquote : quote = '\'' ∨ quote = '"')
    {s : List Char} (hs : ∀ c ∈ s, c ≠ quote ∧ c ≠ '\\' ∧ c ≠ '\n') (next : Option Char) :
    (l.run (quote :: s ++ [quote]) next).IsPlain := by
  have hslash : quote ≠ '/' := by rcases hquote with rfl | rfl <;> decide
  have hescape : quote ≠ '\\' := by rcases hquote with rfl | rfl <;> decide
  have hopen (next : Option Char) : (l.step quote next).2 = { l with mode := .quoted quote } := by
    rw [step_code h.mode, stepCode, if_neg (by simp [hslash]), if_neg (by simp [hslash]),
      if_pos (by simpa using hquote)]
  rw [List.cons_append, Lexer.run, hopen, run_append, run_quoted rfl hs, Lexer.run, step_quoted rfl,
    stepQuoted, if_neg hescape, if_pos rfl]
  exact ⟨rfl, h.substitutions⟩

end Plain

/-! ## Comments and strings -/

section Hidden

variable {l : Lexer} {s : List Char}

theorem glyphsTo_lineComment (hl : l.mode = .lineComment) (hs : '\n' ∉ s) (next : Option Char) :
    (∀ g ∈ l.glyphsTo s next, g.isCode = false) ∧ l.run s next = l := by
  induction s with
  | nil => exact ⟨fun _ h => absurd h List.not_mem_nil, rfl⟩
  | cons c s ih =>
    rw [List.mem_cons, not_or] at hs
    have hstep : l.step c (s.head?.or next) = (.lineComment, l) := by
      rw [step_lineComment hl, if_neg (Ne.symm hs.1)]
    obtain ⟨hhidden, hrun⟩ := ih hs.2
    rw [glyphsTo, run, hstep]
    exact ⟨List.forall_mem_cons.mpr ⟨rfl, hhidden⟩, hrun⟩

theorem glyphsTo_blockComment (hl : l.mode = .blockComment) (hs : ¬['*', '/'] <:+: s) :
    (∀ g ∈ l.glyphsTo s (some '*'), g.isCode = false) ∧ l.run s (some '*') = l := by
  induction s with
  | nil => exact ⟨fun _ h => absurd h List.not_mem_nil, rfl⟩
  | cons c s ih =>
    have hstep : l.step c (s.head?.or (some '*')) = (.blockComment, l) := by
      rw [step_blockComment hl, if_neg]
      intro hends
      simp only [Bool.and_eq_true, decide_eq_true_eq] at hends
      obtain ⟨rfl, hnext⟩ := hends
      cases s with
      | nil => exact absurd (Option.some.inj hnext) (by decide)
      | cons d s =>
        obtain rfl : d = '/' := Option.some.inj hnext
        exact hs ⟨[], s, rfl⟩
    obtain ⟨hhidden, hrun⟩ := ih fun h => hs (h.trans (List.suffix_cons c s).isInfix)
    rw [glyphsTo, run, hstep]
    exact ⟨List.forall_mem_cons.mpr ⟨rfl, hhidden⟩, hrun⟩

/-- Within a string nothing is code, be it escaped or not. -/
theorem glyphsTo_quoted {quote : Char}
    (hl : l.mode = .quoted quote ∨ l.mode = .quotedEscape quote)
    (hs : ∀ c ∈ s, c ≠ quote ∧ c ≠ '\n') (next : Option Char) :
    ∀ g ∈ l.glyphsTo s next, g.isCode = false := by
  induction s generalizing l with
  | nil => exact fun _ h => absurd h List.not_mem_nil
  | cons c s ih =>
    obtain ⟨⟨hquote, hline⟩, hs⟩ := List.forall_mem_cons.mp hs
    have hstep (next : Option Char) : (l.step c next).1 = .string ∧
        ((l.step c next).2.mode = .quoted quote ∨
          (l.step c next).2.mode = .quotedEscape quote) := by
      rcases hl with hl | hl
      · rw [step_quoted hl, stepQuoted, if_neg hquote, if_neg hline]
        by_cases hescape : c = '\\'
        · rw [if_pos hescape]
          exact ⟨rfl, .inr rfl⟩
        · rw [if_neg hescape]
          exact ⟨rfl, .inl hl⟩
      · rw [step_quotedEscape hl]
        exact ⟨rfl, .inl rfl⟩
    obtain ⟨hregion, hmode⟩ := hstep (s.head?.or next)
    rw [glyphsTo]
    refine List.forall_mem_cons.mpr ⟨?_, ih hmode hs⟩
    rw [Glyph.isCode, hregion]
    rfl

theorem IsPlain.glyphsTo_line (hl : l.IsPlain) (hs : '\n' ∉ s) (next : Option Char) :
    (∀ g ∈ l.glyphsTo ('/' :: '/' :: s) next, g.isCode = false) ∧
      l.run ('/' :: '/' :: s) next = { l with mode := .lineComment } := by
  have hopen : l.step '/' (some '/') = (.lineComment, { l with mode := .lineComment }) := by
    rw [step_code hl.mode]
    rfl
  have hmark : '\n' ∉ '/' :: s := by simpa using hs
  obtain ⟨hhidden, hrun⟩ := @glyphsTo_lineComment { l with mode := .lineComment } _ rfl hmark next
  rw [glyphsTo, Lexer.run, List.head?_cons, Option.some_or, hopen]
  exact ⟨List.forall_mem_cons.mpr ⟨rfl, hhidden⟩, hrun⟩

theorem IsPlain.glyphsTo_block (hl : l.IsPlain) (hs : ¬['*', '/'] <:+: s) (next : Option Char) :
    (∀ g ∈ l.glyphsTo ('/' :: '*' :: (s ++ ['*', '/'])) next, g.isCode = false) ∧
      l.run ('/' :: '*' :: (s ++ ['*', '/'])) next = l := by
  have hopen : l.step '/' (some '*') = (.blockComment, { l with mode := .commentOpen }) := by
    rw [step_code hl.mode]
    rfl
  obtain ⟨hhidden, hrun⟩ := @glyphsTo_blockComment { l with mode := .blockComment } _ rfl hs
  have hcode : { l with mode := .code } = l := by rw [← hl.mode]
  rw [glyphsTo, Lexer.run, List.head?_cons, Option.some_or, hopen, glyphsTo, Lexer.run,
    step_commentOpen rfl, glyphsTo_append, run_append]
  simp only [List.head?_cons, Option.some_or, hrun, List.forall_mem_cons, List.forall_mem_append]
  refine ⟨⟨rfl, rfl, hhidden, ?_⟩, hcode⟩
  exact List.forall_mem_cons.mpr ⟨rfl, List.forall_mem_singleton.mpr rfl⟩

end Hidden

end Lexer

end SnippetRunner.Source
