import Mathlib.Data.List.Infix
import SnippetRunner.Proofs.Number.Double
import SnippetRunner.Proofs.Script.CallArguments
import SnippetRunner.Proofs.Script.LastStatement

/-
  Scripts of plain expression statements, one on each line. A line ends with a semicolon outside
  all brackets, so the next line begins a statement whatever its first character is, and each is
  captured. The captured lines are lines of the same kind, and begin with no character that goes on
  with a statement, so the last of them is the last statement.
-/
namespace SnippetRunner.Script

open SnippetRunner.Text SnippetRunner.Source

/-- A text on one line that opens no string, template or comment, closes all its brackets and no
others, and has its semicolons inside them. -/
structure IsPlainCode (s : List Char) : Prop where
  plain : s.all Lexer.isPlainChar = true
  feedless : '\n' ∉ s
  above : ∀ before, before <+: s → before.countP isClosing ≤ before.countP isOpening
  closed : s.countP isClosing = s.countP isOpening
  inside : ∀ before, before ++ [';'] <+: s → before.countP isClosing < before.countP isOpening
  begins : s.head?.any (!isAsciiBlank ·) = true

/-- An expression that may stand as a statement, by its text. -/
structure IsPlainStatement (e : List Char) : Prop extends IsPlainCode e where
  trimmed : e.getLast?.any isBlank = false
  keyword : opensWithKeyword e = false
  notLogging : ¬"console.".toList <+: e
  notCapture : ¬captureFunction <+: e
  opening : e.head?.any (fun c => isClosing c || c = '?' || c = ':' || c = '.') = false
  content : e.all (fun c => isClosing c || c = ';' || c = ',') = false

instance (s : List Char) : Decidable (IsPlainCode s) :=
  decidable_of_iff
    (s.all Lexer.isPlainChar = true ∧ '\n' ∉ s ∧
      (∀ before ∈ s.inits, before.countP isClosing ≤ before.countP isOpening) ∧
      s.countP isClosing = s.countP isOpening ∧
      (∀ before ∈ s.inits, before ++ [';'] <+: s →
        before.countP isClosing < before.countP isOpening) ∧
      s.head?.any (!isAsciiBlank ·) = true)
    ⟨fun ⟨hplain, hfeedless, habove, hclosed, hinside, hbegins⟩ =>
      ⟨hplain, hfeedless, fun before h => habove before ((List.mem_inits ..).mpr h), hclosed,
        fun before h => hinside before
          ((List.mem_inits ..).mpr ((List.prefix_append before [';']).trans h)) h, hbegins⟩,
    fun h => ⟨h.plain, h.feedless, fun before hb => h.above before ((List.mem_inits ..).mp hb),
      h.closed, fun before _ => h.inside before, h.begins⟩⟩

instance (e : List Char) : Decidable (IsPlainStatement e) :=
  decidable_of_iff
    (IsPlainCode e ∧ e.getLast?.any isBlank = false ∧ opensWithKeyword e = false ∧
      ¬"console.".toList <+: e ∧ ¬captureFunction <+: e ∧
      e.head?.any (fun c => isClosing c || c = '?' || c = ':' || c = '.') = false ∧
      e.all (fun c => isClosing c || c = ';' || c = ',') = false)
    ⟨fun ⟨hcode, htrimmed, hkeyword, hlogging, hcapture, hopening, hcontent⟩ =>
      ⟨hcode, htrimmed, hkeyword, hlogging, hcapture, hopening, hcontent⟩,
    fun h => ⟨h.toIsPlainCode, h.trimmed, h.keyword, h.notLogging, h.notCapture, h.opening,
      h.content⟩⟩

/-- The characters of a text, as code. -/
def codeGlyphs (s : List Char) : List Glyph := s.map (⟨·, .code⟩)

@[simp] theorem codeGlyphs_append (a b : List Char) :
    codeGlyphs (a ++ b) = codeGlyphs a ++ codeGlyphs b := List.map_append

theorem codeGlyphs_singleton (c : Char) : codeGlyphs [c] = [⟨c, .code⟩] := rfl

@[simp] theorem map_char_codeGlyphs (s : List Char) : (codeGlyphs s).map Glyph.char = s := by
  simp [codeGlyphs, Function.comp_def]

/-! ## The walk over plain code -/

theorem not_isClosing_of_isOpening {c : Char} (h : isOpening c = true) : isClosing c = false := by
  simp only [isOpening, Bool.or_eq_true, decide_eq_true_eq] at h
  rcases h with (rfl | rfl) | rfl <;> decide

/-- While no prefix closes more brackets than it opens, the open brackets are the difference. -/
theorem foldl_depthBehind {s : List Char}
    (h : ∀ before, before <+: s → before.countP isClosing ≤ before.countP isOpening) :
    (codeGlyphs s).foldl depthBehind 0 + s.countP isClosing = s.countP isOpening := by
  induction s using List.reverseRecOn with
  | nil => rfl
  | append_singleton s c ih =>
    have hinit := ih fun before hbefore => h before (hbefore.trans (List.prefix_append s [c]))
    have hall := h _ List.prefix_rfl
    rw [List.countP_append, List.countP_append, List.countP_singleton, List.countP_singleton]
      at hall
    rw [codeGlyphs_append, List.foldl_append, List.countP_append, List.countP_append,
      List.countP_singleton, List.countP_singleton]
    have hlast (depth : Nat) : (codeGlyphs [c]).foldl depthBehind depth =
        if isOpening c then depth + 1 else if isClosing c then depth - 1 else depth := rfl
    rw [hlast]
    cases hopening : isOpening c with
    | true =>
      rw [not_isClosing_of_isOpening hopening]
      simp only [if_true, Bool.false_eq_true, if_false]
      omega
    | false =>
      rw [hopening] at hall
      cases hclosing : isClosing c with
      | true =>
        rw [hclosing] at hall
        simp only [if_true, Bool.false_eq_true, if_false] at hall ⊢
        omega
      | false =>
        simp only [Bool.false_eq_true, if_false]
        omega

section

variable {p : Progress} {s : List Char}

theorem depth_eq_zero_iff : p.nesting.depth = 0 ↔ p.isOuter = true := by
  rw [Nesting.depth, List.length_eq_zero_iff, Progress.isOuter, List.isEmpty_iff]

theorem isOuter_of_closed (houter : p.isOuter = true)
    (habove : ∀ before, before <+: s → before.countP isClosing ≤ before.countP isOpening)
    (hclosed : s.countP isClosing = s.countP isOpening) :
    (p.run (codeGlyphs s)).isOuter = true := by
  have hdepth := foldl_depthBehind habove
  rw [← depth_eq_zero_iff, depth_run, depth_eq_zero_iff.mpr houter]
  omega

/-- Where every semicolon is inside a bracket, none ends a statement. -/
theorem endsWithin_of_inside (houter : p.isOuter = true)
    (habove : ∀ before, before <+: s → before.countP isClosing ≤ before.countP isOpening)
    (hinside : ∀ before, before ++ [';'] <+: s →
      before.countP isClosing < before.countP isOpening) :
    p.endsWithin (codeGlyphs s) = false := by
  induction s using List.reverseRecOn with
  | nil => rfl
  | append_singleton s c ih =>
    have hprefix : s <+: s ++ [c] := List.prefix_append s [c]
    have hinit := ih (fun before h => habove before (h.trans hprefix))
      fun before h => hinside before (h.trans hprefix)
    rw [codeGlyphs_append, Progress.endsWithin_append, hinit, Bool.false_or]
    by_cases hchar : c = ';'
    · subst hchar
      have hdepth := foldl_depthBehind fun before h => habove before (h.trans hprefix)
      have hlt := hinside s List.prefix_rfl
      have hinner : (p.run (codeGlyphs s)).isOuter = false := by
        rw [Bool.eq_false_iff, Ne, ← depth_eq_zero_iff, depth_run, depth_eq_zero_iff.mpr houter]
        omega
      simp [codeGlyphs_singleton, Progress.endsWithin, Progress.endsAt, hinner]
    · simp [codeGlyphs_singleton, Progress.endsWithin, Progress.endsAt, hchar]

end

namespace IsPlainCode

variable {p : Progress} {s ending : List Char}

theorem feedless_glyphs (h : IsPlainCode s) : ∀ g ∈ codeGlyphs s, g.char ≠ '\n' := by
  intro g hg
  obtain ⟨c, hc, rfl⟩ := List.mem_map.mp hg
  rintro rfl
  exact h.feedless hc

theorem exists_cons (h : IsPlainCode s) : ∃ c rest, s = c :: rest ∧ isAsciiBlank c = false := by
  have hbegins := h.begins
  cases s with
  | nil => simp at hbegins
  | cons c rest => exact ⟨c, rest, rfl, by simpa using hbegins⟩

theorem isPlain_line (h : IsPlainCode s) (hending : ending = [] ∨ ending = ['\n']) :
    (s ++ ';' :: ending).all Lexer.isPlainChar = true := by
  rw [List.all_append, h.plain, Bool.true_and]
  rcases hending with rfl | rfl <;> decide

/-- No call over several lines ends on the line. -/
theorem not_afterMultilineCall (h : IsPlainCode s) (houter : p.isOuter = true) :
    (p.run (codeGlyphs s)).nesting.afterMultilineCall = false := by
  refine Progress.not_afterMultilineCall houter h.feedless_glyphs ?_
  obtain ⟨c, rest, rfl, hblank⟩ := h.exists_cons
  exact ⟨⟨c, .code⟩, List.mem_cons_self .., Glyph.isSignificant_of_isCode rfl hblank⟩

/-- The semicolon of the line ends a statement. -/
theorem endsAt_semicolon (h : IsPlainCode s) (houter : p.isOuter = true) :
    (p.run (codeGlyphs s)).endsAt ⟨';', .code⟩ = true := by
  have hbehind := isOuter_of_closed houter h.above h.closed
  have hcall := h.not_afterMultilineCall houter
  simp [Progress.endsAt, hbehind, hcall, Glyph.isCode]

/-- Behind the line no bracket is open, and a statement has ended. -/
theorem run_line (h : IsPlainCode s) (houter : p.isOuter = true)
    (hending : ending = [] ∨ ending = ['\n']) :
    (p.run (codeGlyphs (s ++ ';' :: ending))).isOuter = true ∧
      (p.run (codeGlyphs (s ++ ';' :: ending))).ended = true := by
  have hends := h.endsAt_semicolon houter
  have hbehind := isOuter_of_closed houter h.above h.closed
  have hsignificant : Glyph.isSignificant ⟨';', .code⟩ = true := by decide
  have hspare : ∀ g ∈ codeGlyphs ending, g.isSignificant = false := by
    rcases hending with rfl | rfl <;> decide
  have hsemicolon : ((p.run (codeGlyphs s)).step ⟨';', .code⟩).isOuter = true ∧
      ((p.run (codeGlyphs s)).step ⟨';', .code⟩).ended = true := by
    constructor
    · rw [Progress.isOuter, opened_step_of_semicolon rfl]
      exact hbehind
    · rw [Progress.step, if_pos hsignificant]
      exact hends
  rw [← List.singleton_append, codeGlyphs_append, codeGlyphs_append, codeGlyphs_singleton,
    Progress.run_append, List.singleton_append, Progress.run_cons, Progress.isOuter,
    Progress.run_opened_of_not _ hspare, Progress.run_ended_of_not _ hspare]
  exact hsemicolon

end IsPlainCode

/-! ## Captured lines -/

/-- What begins a text with a semicolon behind it, and holds none, begins the text. -/
theorem exists_of_append_semicolon {start e rest : List Char} (hstart : ';' ∉ start)
    (h : e ++ [';'] = start ++ rest) : ∃ more, e = start ++ more ∧ rest = more ++ [';'] := by
  rcases append_eq_append_cons h.symm with ⟨more, rfl, hrest⟩ | ⟨more, hmore, -⟩
  · exact ⟨more, rfl, hrest⟩
  · exact absurd (by simp [hmore]) hstart

theorem opensWithWord_semicolon {word : List Char} (hword : ';' ∉ word) (e : List Char) :
    opensWithWord (e ++ [';']) word = opensWithWord e word := by
  have hends (more : List Char) : identifierEnds (more ++ [';']) = identifierEnds more := by
    cases more with
    | nil => decide
    | cons c more => rfl
  rw [Bool.eq_iff_iff, opensWithWord, opensWithWord, Option.any_eq_true, Option.any_eq_true]
  simp only [dropStart?_eq_some_iff]
  constructor
  · rintro ⟨rest, hjoin, hrest⟩
    obtain ⟨more, he, rfl⟩ := exists_of_append_semicolon hword hjoin
    exact ⟨more, he, by rwa [hends] at hrest⟩
  · rintro ⟨more, rfl, hmore⟩
    exact ⟨more ++ [';'], List.append_assoc .., by rwa [hends]⟩

theorem opensWithKeyword_semicolon (e : List Char) :
    opensWithKeyword (e ++ [';']) = opensWithKeyword e := by
  have hwords : ∀ word ∈ statementKeywords, ';' ∉ word := by decide
  rw [Bool.eq_iff_iff, opensWithKeyword, opensWithKeyword, List.any_eq_true, List.any_eq_true]
  exact exists_congr fun word => and_congr_right fun h => by
    rw [opensWithWord_semicolon (hwords word h)]

theorem dropSemicolon_concat (s : List Char) : dropSemicolon (s ++ [';']) = s := by
  rw [dropSemicolon, if_pos List.getLast?_concat, List.dropLast_concat]

theorem trimEnd_of_trimmed {s : List Char} (h : s.getLast?.any isBlank = false) :
    trimEnd s = s := by
  rw [trimEnd, dropWhile_eq_self, List.reverse_reverse]
  intro c hc
  rw [List.head?_reverse] at hc
  rwa [Option.mem_def.mp hc] at h

namespace IsPlainStatement

variable {e ending : List Char} {p : Progress}

/-- The cut of the line. -/
def parts (h : IsPlainStatement e) (hending : ending = [] ∨ ending = ['\n']) :
    Parts (codeGlyphs (e ++ ';' :: ending)) where
  indent := []
  statement := codeGlyphs (e ++ [';'])
  after := []
  terminator := codeGlyphs ending
  join := by simp [codeGlyphs]
  indentBlank := by simp
  headNotBlank := by
    obtain ⟨c, rest, rfl, hblank⟩ := h.exists_cons
    intro g hg
    obtain rfl : ⟨c, .code⟩ = g := by simpa [codeGlyphs] using hg
    exact hblank
  lastSignificant := by
    intro g hg
    obtain rfl : ⟨';', .code⟩ = g := by simpa [codeGlyphs] using hg
    decide
  afterNot := by simp
  feedless := by
    intro g hg
    simp only [List.nil_append, List.append_nil, codeGlyphs_append, List.mem_append] at hg
    rcases hg with hg | hg
    · exact h.feedless_glyphs g hg
    · rw [List.mem_singleton.mp hg]
      decide
  terminated := by
    rcases hending with rfl | rfl
    · exact Or.inl rfl
    · refine Or.inr ⟨⟨'\n', .code⟩, rfl, Or.inl ⟨rfl, ?_⟩⟩
      intro g hg
      obtain rfl : ⟨';', .code⟩ = g := by simpa [codeGlyphs] using hg
      decide

theorem expression_parts (h : IsPlainStatement e) (hending : ending = [] ∨ ending = ['\n']) :
    (h.parts hending).expression = e := by
  rw [Parts.expression, parts, map_char_codeGlyphs, dropSemicolon_concat,
    trimEnd_of_trimmed h.trimmed]

theorem isSkippedForm_eq_false (h : IsPlainStatement e) : isSkippedForm (e ++ [';']) = false := by
  have hstart {start : List Char} (hsemicolon : ';' ∉ start) (hnot : ¬start <+: e) :
      (dropStart? start (e ++ [';'])).isSome = false := by
    rw [Bool.eq_false_iff, Ne, Option.isSome_iff_exists]
    rintro ⟨rest, hrest⟩
    obtain ⟨more, he, -⟩ :=
      exists_of_append_semicolon hsemicolon (dropStart?_eq_some_iff.mp hrest)
    exact hnot ⟨more, he.symm⟩
  have hhead : (e ++ [';']).head? = e.head? := by
    obtain ⟨c, rest, rfl, -⟩ := h.exists_cons
    rfl
  have hall : (e ++ [';']).all (fun c => isClosing c || c = ';' || c = ',') = false := by
    rw [List.all_append, h.content, Bool.false_and]
  rw [isSkippedForm, opensWithKeyword_semicolon, h.keyword, hall, hhead, h.opening,
    List.getLast?_concat, hstart (by decide) h.notLogging, hstart (by decide) h.notCapture]
  decide

theorem captures (h : IsPlainStatement e) (hending : ending = [] ∨ ending = ['\n'])
    (houter : p.isOuter = true) (hended : p.ended = true) (f : List Glyph) :
    Captures (h.parts hending) p true f where
  outer := houter
  outerAfter := (h.run_line houter hending).1
  fromCode := rfl
  endsInCode := by
    rcases hending with rfl | rfl <;> rfl
  begins := by
    obtain ⟨c, rest, rfl, hblank⟩ := h.exists_cons
    exact ⟨⟨c, .code⟩, rfl, rfl, by rw [hended]; rfl⟩
  form := by
    rw [parts, map_char_codeGlyphs]
    exact h.isSkippedForm_eq_false
  single := by
    have hsemicolon : (codeGlyphs (e ++ [';'])).dropLast = codeGlyphs e := by
      rw [codeGlyphs_append, codeGlyphs_singleton, List.dropLast_concat]
    exact hsemicolon ▸ endsWithin_of_inside houter h.above h.inside
  ends := by
    left
    simp [parts, codeGlyphs]
  nonempty := by
    rw [h.expression_parts]
    obtain ⟨c, rest, rfl, -⟩ := h.exists_cons
    exact List.cons_ne_nil _ _

end IsPlainStatement

/-- Lines, joined to a text. -/
def onLines (ls : List (List Char)) : List Char := ['\n'].intercalate ls

/-- The calls that report expressions on lines from `number` on. -/
def callsFrom (number : Nat) (es : List (List Char)) : List (List Char) :=
  (es.zipIdx number).map fun (e, i) => captureCall e i

theorem onLines_cons (a : List Char) {ls : List (List Char)} (hne : ls ≠ []) :
    onLines (a :: ls) = a ++ '\n' :: onLines ls := by
  obtain ⟨b, ls, rfl⟩ := List.exists_cons_of_ne_nil hne
  simp [onLines, List.intercalate]

theorem onLines_singleton (a : List Char) : onLines [a] = a := by
  simp [onLines, List.intercalate]

theorem callsFrom_cons (number : Nat) (e : List Char) (es : List (List Char)) :
    callsFrom number (e :: es) = captureCall e number :: callsFrom (number + 1) es := rfl

theorem callsFrom_ne_nil {number : Nat} {es : List (List Char)} (hne : es ≠ []) :
    callsFrom number es ≠ [] := by
  simpa [callsFrom] using hne

namespace IsPlainStatement

variable {e ending : List Char} {l : Lexer} {p : Progress}

theorem firstLine (h : IsPlainStatement e) {rest : List Char}
    (hending : ending = [] ∨ ending = ['\n']) (hrest : rest ≠ [] → ending = ['\n']) :
    FirstLine (e ++ ';' :: ending) rest where
  cut := by
    have hunmarked : ∀ c ∈ e ++ [';'], decide (c = '\n') = false :=
      unmarked_of_notMem (by simp [h.feedless])
    rcases hending with rfl | rfl
    · exact .unclosed (by simp) hunmarked
    · have hcut : Cut (· = '\n') [(e ++ [';']) ++ ['\n']] := .closed hunmarked (by decide) .nil
      rwa [List.append_assoc] at hcut
  ended := by
    intro hne
    simp [hrest hne]

/-- The first line is captured, and behind it everything is as before it. -/
theorem instrumentFrom_line (h : IsPlainStatement e) (rest : List Char)
    (hending : ending = [] ∨ ending = ['\n']) (hrest : rest ≠ [] → ending = ['\n'])
    (hl : l.IsPlain) (houter : p.isOuter = true) (hended : p.ended = true) (number : Nat) :
    ∃ l' p', l'.IsPlain ∧ p'.isOuter = true ∧ p'.ended = true ∧
      instrumentFrom number true (lines (walk l p (e ++ ';' :: ending ++ rest))) =
        ⟨captureCall e number ++ ending, some (number, e)⟩ ::
          instrumentFrom (number + 1) true (lines (walk l' p' rest)) := by
  have hplain := h.isPlain_line hending
  have hfirst := h.firstLine hending hrest
  have hglyphs : l.glyphsTo (e ++ ';' :: ending) none = codeGlyphs (e ++ ';' :: ending) :=
    hl.glyphsTo_eq hplain none
  have hcode : (codeGlyphs (e ++ ';' :: ending)).getLast?.all Glyph.isCode = true := by
    rw [codeGlyphs, List.getLast?_map, Option.all_map]
    cases (e ++ ';' :: ending).getLast? <;> rfl
  obtain ⟨l', hl'⟩ : ∃ l', l' = l.run (e ++ ';' :: ending) none := ⟨_, rfl⟩
  obtain ⟨p', hp'⟩ : ∃ p', p' = p.run (codeGlyphs (e ++ ';' :: ending)) := ⟨_, rfl⟩
  have hcaptured := ((h.parts hending).isCaptured_iff p (by simp [codeGlyphs]) true
    (map_glyph_lines_walk l' p' rest)).mpr (h.captures hending houter hended _)
  refine ⟨l', p', hl' ▸ hl.run hplain none, hp' ▸ (h.run_line houter hending).1,
    hp' ▸ (h.run_line houter hending).2, ?_⟩
  rw [hfirst.lines_walk, instrumentFrom, getLast?_cells_ofPiece, hglyphs, hcode, ← hl', ← hp',
    instrumentLine, Line.expression?_eq_some_iff.mpr ⟨hcaptured, rfl⟩]
  dsimp only
  rw [(h.parts hending).expression_eq, (h.parts hending).indent_eq, (h.parts hending).line_eq,
    h.expression_parts, Progress.map_char_cellsTo, Progress.map_char_cellsTo]
  simp [parts]

end IsPlainStatement

/-- Every line is captured. -/
theorem instrumentFrom_lines {es : List (List Char)} {ending : List Char} {l : Lexer} {p : Progress}
    (hne : es ≠ []) (h : ∀ e ∈ es, IsPlainStatement e) (hending : ending = [] ∨ ending = ['\n'])
    (hl : l.IsPlain) (houter : p.isOuter = true) (hended : p.ended = true) (number : Nat) :
    let instrumented := instrumentFrom number true
      (lines (walk l p (onLines (es.map (· ++ [';'])) ++ ending)))
    instrumented.flatMap InstrumentedLine.text = onLines (callsFrom number es) ++ ending ∧
      instrumented.filterMap InstrumentedLine.captured = (es.zipIdx number).map Prod.swap := by
  induction es generalizing l p number with
  | nil => exact absurd rfl hne
  | cons e es ih =>
    have he := h e (List.mem_cons_self ..)
    by_cases hes : es = []
    · subst hes
      obtain ⟨l', p', -, -, -, hline⟩ := he.instrumentFrom_line [] hending
        (fun hne => absurd rfl hne) hl houter hended number
      have hnone : lines (walk l' p' []) = [] := rfl
      rw [List.append_nil, hnone, instrumentFrom] at hline
      have htext : onLines ([e].map (· ++ [';'])) ++ ending = e ++ ';' :: ending := by
        simp [onLines_singleton]
      rw [htext, hline]
      simp [callsFrom, onLines_singleton]
    · obtain ⟨rest, hrest⟩ : ∃ rest, rest = onLines (es.map (· ++ [';'])) ++ ending := ⟨_, rfl⟩
      obtain ⟨l', p', hl', houter', hended', hline⟩ := he.instrumentFrom_line rest
        (Or.inr rfl) (fun _ => rfl) hl houter hended number
      obtain ⟨htexts, hcaptured⟩ := ih hes (fun d hd => h d (List.mem_cons_of_mem _ hd)) hl'
        houter' hended' (number + 1)
      rw [← hrest] at htexts hcaptured
      have htext : onLines ((e :: es).map (· ++ [';'])) ++ ending = e ++ [';', '\n'] ++ rest := by
        rw [hrest, List.map_cons, onLines_cons _ (List.map_eq_nil_iff.not.mpr hes)]
        simp
      rw [htext, hline]
      dsimp only
      rw [List.flatMap_cons, htexts, callsFrom_cons, onLines_cons _ (callsFrom_ne_nil hes)]
      simp [hcaptured, List.zipIdx_cons]

/-! ## The last line -/

/-- The call that reports an expression, without its semicolon. -/
def bareCall (e : List Char) (number : Nat) : List Char := callStart ++ e ++ callEnd number

theorem captureCall_eq_bareCall (e : List Char) (number : Nat) :
    captureCall e number = bareCall e number ++ [';'] := by
  rw [captureCall_eq, bareCall]
  simp

theorem countP_callEnd (number : Nat) {p : Char → Bool}
    (hdigits : ∀ c, c.isDigit = true → p c = false) :
    (callEnd number).countP p = ", )".toList.countP p := by
  have hrepr : (Nat.repr number).toList.countP p = 0 :=
    List.countP_eq_zero.mpr fun c hc => by simp [hdigits c (isDigit_of_mem_repr hc)]
  have hrest : ", )".toList = ", ".toList ++ ")".toList := by decide
  rw [callEnd, List.countP_append, List.countP_append, hrepr, hrest, List.countP_append]
  rfl

theorem countP_callStart :
    callStart.countP isClosing = 0 ∧ callStart.countP isOpening = 1 := by decide

theorem countP_isClosing_callEnd (number : Nat) : (callEnd number).countP isClosing = 1 :=
  countP_callEnd number fun _ hc => (not_bracket_of (by decide) hc).2

theorem countP_isOpening_callEnd (number : Nat) : (callEnd number).countP isOpening = 0 :=
  countP_callEnd number fun _ hc => (not_bracket_of (by decide) hc).1

theorem semicolon_notMem_callEnd (number : Nat) : ';' ∉ callEnd number := by
  have hcount : (callEnd number).countP (· = ';') = 0 := countP_callEnd number fun c hc => by
    rw [decide_eq_false_iff_not]
    rintro rfl
    exact absurd hc (by decide)
  exact fun hmem => List.countP_eq_zero.mp hcount _ hmem (by decide)

theorem prefix_append_iff {α : Type} {s a b : List α} :
    s <+: a ++ b ↔ s <+: a ∨ ∃ t, t <+: b ∧ s = a ++ t := by
  constructor
  · rintro ⟨rest, h⟩
    rcases List.append_eq_append_iff.mp h with ⟨t, ha, -⟩ | ⟨t, hs, hb⟩
    · exact Or.inl ⟨t, ha.symm⟩
    · exact Or.inr ⟨t, ⟨rest, hb.symm⟩, hs⟩
  · rintro (h | ⟨t, ht, rfl⟩)
    · exact h.trans (List.prefix_append a b)
    · exact (List.prefix_append_right_inj a).mpr ht

/-- A semicolon of a call is one of the expression. -/
theorem exists_of_prefix_bareCall {e before : List Char} {number : Nat}
    (h : before ++ [';'] <+: bareCall e number) :
    ∃ more, before = callStart ++ more ∧ more ++ [';'] <+: e := by
  have hstart : ';' ∉ callStart := by decide
  obtain ⟨first, hjoin, hfirst⟩ : ∃ first, before ++ [';'] = callStart ++ first ∧ first <+: e := by
    rcases prefix_append_iff.mp h with h | ⟨last, hlast, hjoin⟩
    · rcases prefix_append_iff.mp h with h | ⟨first, hfirst, hjoin⟩
      · exact absurd (h.subset (by simp)) hstart
      · exact ⟨first, hjoin, hfirst⟩
    · rcases last.eq_nil_or_concat' with rfl | ⟨init, c, rfl⟩
      · exact ⟨e, by simpa using hjoin, List.prefix_rfl⟩
      · rw [← List.append_assoc] at hjoin
        obtain rfl : ';' = c := by simpa using (List.append_inj' hjoin rfl).2
        exact absurd (hlast.subset (by simp)) (semicolon_notMem_callEnd number)
  obtain ⟨more, rfl, rfl⟩ := exists_of_append_semicolon hstart hjoin
  exact ⟨more, rfl, hfirst⟩

/-- The call of a plain expression is plain code. -/
theorem IsPlainCode.call {e : List Char} (h : IsPlainCode e) (number : Nat) :
    IsPlainCode (bareCall e number) where
  plain := by
    have hend : (callEnd number).all Lexer.isPlainChar = true := by
      rw [List.all_eq_true]
      intro c hc
      have hplain := isPlain_callEnd number c hc
      revert hplain
      simp [isPlain, Lexer.isPlainChar]
      tauto
    rw [bareCall, List.all_append, List.all_append, h.plain, hend]
    decide
  feedless := by
    have h := newline_notMem_captureCall number h.feedless
    rw [captureCall_eq_bareCall] at h
    exact fun hmem => h (List.mem_append_left _ hmem)
  above := by
    intro before hbefore
    have hstart := countP_callStart
    have hend := countP_isClosing_callEnd number
    have hclosed := h.closed
    rcases prefix_append_iff.mp hbefore with hbefore | ⟨last, hlast, rfl⟩
    · rcases prefix_append_iff.mp hbefore with hbefore | ⟨first, hfirst, rfl⟩
      · have hle := hbefore.sublist.countP_le (p := isClosing)
        omega
      · have habove := h.above first hfirst
        rw [List.countP_append, List.countP_append]
        omega
    · have hle := hlast.sublist.countP_le (p := isClosing)
      simp only [List.countP_append]
      omega
  closed := by
    have hstart := countP_callStart
    have hclosing := countP_isClosing_callEnd number
    have hopening := countP_isOpening_callEnd number
    have hclosed := h.closed
    simp only [bareCall, List.countP_append]
    omega
  inside := by
    -- the semicolon is inside the parentheses of the call
    intro before hbefore
    obtain ⟨more, rfl, hmore⟩ := exists_of_prefix_bareCall hbefore
    have habove := h.above more ((List.prefix_append more [';']).trans hmore)
    have hstart := countP_callStart
    rw [List.countP_append, List.countP_append]
    omega
  begins := by
    rfl

/-- Lines of plain code, each with a semicolon and its line end. -/
def fullLines (ls : List (List Char)) : List Char := ls.flatMap (· ++ [';', '\n'])

theorem onLines_concat (ls : List (List Char)) (s : List Char) :
    onLines (ls.map (· ++ [';']) ++ [s]) = fullLines ls ++ s := by
  induction ls with
  | nil => exact onLines_singleton s
  | cons a ls ih =>
    rw [List.map_cons, List.cons_append, onLines_cons _ (by simp), ih, fullLines, fullLines,
      List.flatMap_cons]
    simp

theorem newlines_fullLines {ls : List (List Char)} (h : ∀ s ∈ ls, IsPlainCode s) :
    newlines (fullLines ls) = ls.length := by
  induction ls with
  | nil => rfl
  | cons s ls ih =>
    have hs : newlines s = 0 := List.count_eq_zero.mpr (h s (List.mem_cons_self ..)).feedless
    have hrest := ih fun t ht => h t (List.mem_cons_of_mem _ ht)
    have hend : newlines [';', '\n'] = 1 := by decide
    rw [fullLines, List.flatMap_cons, ← fullLines, newlines_append, newlines_append, hs, hrest,
      hend, List.length_cons]
    omega

theorem isPlain_fullLines {ls : List (List Char)} (h : ∀ s ∈ ls, IsPlainCode s) :
    (fullLines ls).all Lexer.isPlainChar = true := by
  rw [fullLines, List.all_flatMap, List.all_eq_true]
  intro s hs
  rw [List.all_append, (h s hs).plain]
  decide

theorem isOuter_fullLines {ls : List (List Char)} (h : ∀ s ∈ ls, IsPlainCode s) {p : Progress}
    (houter : p.isOuter = true) : (p.run (codeGlyphs (fullLines ls))).isOuter = true := by
  induction ls generalizing p with
  | nil => exact houter
  | cons s ls ih =>
    have hline := ((h s (List.mem_cons_self ..)).run_line houter (Or.inr rfl)).1
    rw [fullLines, List.flatMap_cons, codeGlyphs_append, Progress.run_append]
    exact ih (fun t ht => h t (List.mem_cons_of_mem _ ht)) hline

namespace IsPlainCode

variable {s : List Char} {p : Progress}

/-- What is not a continuation does not go on with the line before it. -/
theorem continuesIn_eq_false (h : IsPlainCode s) (hhead : s.head?.any isContinuation = false)
    (rest : List Char) : continuesIn (codeGlyphs (s ++ rest)) = false := by
  obtain ⟨c, more, rfl, hblank⟩ := h.exists_cons
  exact (continuesIn_cons_of_significant (Glyph.isSignificant_of_isCode rfl hblank) _).trans hhead

/-- The cells of the line are one piece. -/
theorem splitAfter_line (h : IsPlainCode s) (houter : p.isOuter = true) (f : List Glyph)
    (rest : List Cell) :
    splitAfter Cell.boundary (p.cellsTo (codeGlyphs (s ++ [';'])) f ++ rest) =
      p.cellsTo (codeGlyphs (s ++ [';'])) f :: splitAfter Cell.boundary rest := by
  have hunmarked : ∀ c ∈ p.cellsTo (codeGlyphs s) (codeGlyphs [';'] ++ f), c.boundary = false := by
    have hnone := p.any_boundary_cellsTo (codeGlyphs [';'] ++ f) h.feedless_glyphs
    rw [endsWithin_of_inside houter h.above h.inside] at hnone
    simpa using hnone
  have hmarked : ((p.run (codeGlyphs s)).cellAt ⟨';', .code⟩ ([] ++ f)).boundary = true := by
    rw [Progress.cellAt, Progress.isBoundary_eq, h.endsAt_semicolon houter, Bool.true_or]
  rw [codeGlyphs_append, Progress.cellsTo_append, codeGlyphs_singleton, Progress.cellsTo,
    Progress.cellsTo, List.append_assoc, List.singleton_append]
  exact splitAfter_append_marked rest hunmarked hmarked

end IsPlainCode

theorem lastStatementIn_append_of_not {later : List (List Cell)}
    (h : ∀ piece ∈ later, ∀ c ∈ piece, c.isSignificant = false) (earlier : List (List Cell))
    (after : List Cell) :
    lastStatementIn (later ++ earlier) after =
      lastStatementIn earlier (later.reverse.flatten ++ after) := by
  induction later generalizing after with
  | nil => rfl
  | cons piece later ih =>
    have hnot : ¬piece.any Cell.isSignificant = true := by
      simpa using h piece (List.mem_cons_self ..)
    rw [List.cons_append, lastStatementIn, if_neg hnot,
      ih fun p hp => h p (List.mem_cons_of_mem _ hp), List.reverse_cons, List.flatten_append,
      List.flatten_singleton, List.append_assoc]

/-- A piece with nothing significant behind it is the last statement, if something significant
begins it. -/
theorem lastStatement?_of_piece {cs first line last : List Cell}
    (hsplit : splitAfter Cell.boundary cs =
      splitAfter Cell.boundary first ++ line :: splitAfter Cell.boundary last)
    (hhead : line.head?.any Cell.isSignificant = true)
    (hlast : ∀ c ∈ last, c.isSignificant = false) :
    lastStatement? cs = some ⟨first, line, last⟩ := by
  have hpieces : ∀ piece ∈ (splitAfter Cell.boundary last).reverse, ∀ c ∈ piece,
      c.isSignificant = false := by
    intro piece hpiece c hc
    refine hlast c ?_
    rw [← flatten_splitAfter Cell.boundary last]
    exact List.mem_flatten_of_mem (List.mem_reverse.mp hpiece) hc
  obtain ⟨c, rest, rfl⟩ : ∃ c rest, line = c :: rest := by
    cases line with
    | nil => simp at hhead
    | cons c rest => exact ⟨c, rest, rfl⟩
  have hc : c.isSignificant = true := by simpa using hhead
  have hnot : ∀ d ∈ (c :: rest).head?, (!d.isSignificant) = false := by simp [hc]
  rw [lastStatement?, hsplit, List.reverse_append, List.reverse_cons, List.append_assoc,
    lastStatementIn_append_of_not hpieces, List.reverse_reverse, flatten_splitAfter,
    List.singleton_append, lastStatementIn, if_pos (by simp [hc]), List.reverse_reverse,
    flatten_splitAfter, takeWhile_eq_nil hnot, dropWhile_eq_self hnot, List.append_nil,
    List.append_nil]

/-- Where a line begins with no continuation, the lines before it end a statement. -/
theorem boundary_of_fullLines {ls : List (List Char)} (hls : ∀ t ∈ ls, IsPlainCode t)
    {f : List Glyph} (hf : continuesIn f = false) :
    ∀ c ∈ (Progress.initial.cellsTo (codeGlyphs (fullLines ls)) f).getLast?, c.boundary = true := by
  cases ls.eq_nil_or_concat' with
  | inl hnil =>
    subst hnil
    exact nofun
  | inr hconcat =>
    obtain ⟨init, t, rfl⟩ := hconcat
    have ht := hls t (List.mem_append_right _ (List.mem_singleton_self t))
    have hlines : fullLines (init ++ [t]) = (fullLines init ++ (t ++ [';'])) ++ ['\n'] := by
      simp [fullLines]
    have houter := (ht.run_line (isOuter_fullLines (fun u hu => hls u
      (List.mem_append_left _ hu)) (p := .initial) rfl) (Or.inl rfl)).1
    rw [← Progress.run_append, ← codeGlyphs_append] at houter
    intro c hc
    rw [hlines, codeGlyphs_append, codeGlyphs_singleton, Progress.getLast?_cellsTo] at hc
    obtain rfl := Option.some.inj hc
    rw [Progress.cellAt, Progress.isBoundary_eq, Progress.breaksAt, houter, hf]
    simp [Glyph.isCode]

/-- The statement of the last line is the last statement. -/
theorem lastStatement?_lines {ls : List (List Char)} {s ending : List Char}
    (hls : ∀ t ∈ ls, IsPlainCode t) (hs : IsPlainCode s)
    (hhead : s.head?.any isContinuation = false) (hending : ending = [] ∨ ending = ['\n']) :
    ∃ last, lastStatement? (cells (fullLines ls ++ (s ++ ';' :: ending))) = some last ∧
      last.before.map Cell.char = fullLines ls ∧
      last.statement.map Cell.glyph = codeGlyphs (s ++ [';']) ∧
      last.after.map Cell.char = ending := by
  obtain ⟨p, hp⟩ : ∃ p, p = Progress.initial.run (codeGlyphs (fullLines ls)) := ⟨_, rfl⟩
  have houter : p.isOuter = true := hp ▸ isOuter_fullLines hls rfl
  have hglyphs : glyphs (fullLines ls ++ (s ++ ';' :: ending)) =
      codeGlyphs (fullLines ls) ++ (codeGlyphs (s ++ [';']) ++ codeGlyphs ending) := by
    have hplain : (fullLines ls ++ (s ++ ';' :: ending)).all Lexer.isPlainChar = true := by
      rw [List.all_append, isPlain_fullLines hls, hs.isPlain_line hending]
      rfl
    rw [glyphs, Lexer.glyphsFrom_eq_glyphsTo, Lexer.isPlain_initial.glyphsTo_eq hplain]
    simp [codeGlyphs]
  obtain ⟨first, hfirst⟩ : ∃ first, first = Progress.initial.cellsTo (codeGlyphs (fullLines ls))
    (codeGlyphs (s ++ [';']) ++ codeGlyphs ending) := ⟨_, rfl⟩
  obtain ⟨line, hline⟩ : ∃ line,
    line = p.cellsTo (codeGlyphs (s ++ [';'])) (codeGlyphs ending) := ⟨_, rfl⟩
  obtain ⟨last, hlast⟩ : ∃ last,
    last = (p.run (codeGlyphs (s ++ [';']))).cellsTo (codeGlyphs ending) [] := ⟨_, rfl⟩
  have hcells : cells (fullLines ls ++ (s ++ ';' :: ending)) = first ++ (line ++ last) := by
    rw [cells_eq_cellsTo, hglyphs, Progress.cellsTo_append, Progress.cellsTo_append, ← hp,
      List.append_nil, List.append_nil, hfirst, hline, hlast]
  have hclosed : ∀ c ∈ first.getLast?, c.boundary = true := by
    rw [hfirst, ← codeGlyphs_append, List.append_assoc]
    exact boundary_of_fullLines hls (hs.continuesIn_eq_false hhead _)
  refine ⟨⟨first, line, last⟩, lastStatement?_of_piece ?_ ?_ ?_, ?_, ?_, ?_⟩
  · rw [hcells, splitAfter_append_of_marked hclosed, hline, hs.splitAfter_line houter]
  · obtain ⟨c, rest, rfl, hblank⟩ := hs.exists_cons
    rw [hline]
    exact Glyph.isSignificant_of_isCode (g := ⟨c, .code⟩) rfl hblank
  · intro c hc
    have hmem : c.glyph ∈ codeGlyphs ending := by
      rw [← Progress.map_glyph_cellsTo (p.run (codeGlyphs (s ++ [';']))) (codeGlyphs ending) [],
        ← hlast]
      exact List.mem_map_of_mem hc
    rcases hending with rfl | rfl
    · cases hmem
    · rw [Cell.isSignificant, List.mem_singleton.mp hmem]
      decide
  · rw [hfirst, Progress.map_char_cellsTo, map_char_codeGlyphs]
  · rw [hline, Progress.map_glyph_cellsTo]
  · rw [hlast, Progress.map_char_cellsTo, map_char_codeGlyphs]

theorem returnLast_lines {ls : List (List Char)} {s ending : List Char}
    (hls : ∀ t ∈ ls, IsPlainCode t) (hs : IsPlainCode s)
    (hhead : s.head?.any isContinuation = false) (htrimmed : s.getLast?.any isBlank = false)
    (hform : isStatementForm (s ++ [';']) = false) (hending : ending = [] ∨ ending = ['\n']) :
    returnLast (fullLines ls ++ (s ++ ';' :: ending)) =
      ⟨fullLines ls ++ ("return ".toList ++ s ++ ';' :: ending), some (ls.length + 1)⟩ := by
  obtain ⟨last, hlast, hbefore, hglyphs, hafter⟩ := lastStatement?_lines hls hs hhead hending
  have hstatement : last.statement.map Cell.char = s ++ [';'] := by
    have hchars := congrArg (List.map Glyph.char) hglyphs
    rwa [map_char_codeGlyphs, map_char_glyph] at hchars
  have hends : ∀ c ∈ last.statement.getLast?, c.isSignificant = true := by
    intro c hc
    have hglyph := congrArg List.getLast? hglyphs
    rw [List.getLast?_map, Option.mem_def.mp hc, codeGlyphs_append, codeGlyphs_singleton,
      List.getLast?_concat] at hglyph
    rw [Cell.isSignificant, Option.some.inj hglyph]
    decide
  have hall : upToLast Cell.isSignificant last.statement = last.statement := by
    have hup : upToLast Cell.isSignificant (last.statement ++ []) = last.statement :=
      upToLast_append_of_not hends (fun _ hc => absurd hc List.not_mem_nil)
    rwa [List.append_nil] at hup
  have hexpression : last.expression = s := by
    rw [LastStatement.expression, hall, hstatement, dropSemicolon_concat,
      trimEnd_of_trimmed htrimmed]
  have hreturnable : last.isReturnable = true := by
    obtain ⟨c, rest, rfl, -⟩ := hs.exists_cons
    rw [LastStatement.isReturnable, hstatement, hform, hexpression]
    rfl
  have htail : last.tail = [] := by
    rw [LastStatement.tail, hstatement, hexpression, List.drop_left]
    rfl
  rw [returnLast_of_lastStatement hlast, if_pos hreturnable, LastStatement.returned,
    LastStatement.line, htail, hexpression, hbefore, hafter, newlines_fullLines hls]
  simp

/-! ## The whole script -/

theorem callsFrom_concat (number : Nat) (es : List (List Char)) (e : List Char) :
    callsFrom number (es ++ [e]) = callsFrom number es ++ [captureCall e (number + es.length)] := by
  simp [callsFrom, List.zipIdx_append]

theorem exists_bareCalls {es : List (List Char)} (h : ∀ e ∈ es, IsPlainStatement e)
    (number : Nat) : ∃ ls : List (List Char), callsFrom number es = ls.map (· ++ [';']) ∧
      (∀ s ∈ ls, IsPlainCode s) ∧ ls.length = es.length := by
  refine ⟨(es.zipIdx number).map fun (e, i) => bareCall e i, ?_, ?_, by simp⟩
  · simp [callsFrom, captureCall_eq_bareCall, Function.comp_def]
  · intro s hs
    obtain ⟨⟨e, i⟩, hmem, rfl⟩ := List.mem_map.mp hs
    exact (h e (List.fst_mem_of_mem_zipIdx hmem)).toIsPlainCode.call i

/-- A call is no statement of a form that is left alone. -/
theorem isStatementForm_bareCall (e : List Char) (number : Nat) :
    isStatementForm (bareCall e number ++ [';']) = false := rfl

/-- Every line is captured, whatever it begins with, and the last one is returned. -/
theorem plain_statements_captured {es : List (List Char)} {ending : List Char} (hne : es ≠ [])
    (h : ∀ e ∈ es, IsPlainStatement e) (hending : ending = [] ∨ ending = ['\n']) :
    instrument (onLines (es.map (· ++ [';'])) ++ ending) =
        ⟨onLines (callsFrom 1 es) ++ ending, (es.zipIdx 1).map Prod.swap⟩ ∧
      returnLast (onLines (callsFrom 1 es) ++ ending) =
        ⟨onLines ((callsFrom 1 es).dropLast ++
            ["return ".toList ++ captureCall (es.getLast hne) es.length]) ++ ending,
          some es.length⟩ := by
  constructor
  · obtain ⟨htext, hcaptured⟩ := instrumentFrom_lines (l := .initial) (p := .initial) hne h hending
      Lexer.isPlain_initial rfl rfl 1
    rw [walk_initial] at htext hcaptured
    rw [instrument, htext, hcaptured]
  · obtain ⟨init, e, rfl⟩ := es.eq_nil_or_concat'.resolve_left hne
    have he := h e (List.mem_append_right _ (List.mem_singleton_self e))
    obtain ⟨ls, hcalls, hls, hlength⟩ :=
      exists_bareCalls (fun d hd => h d (List.mem_append_left _ hd)) 1
    have hcall := he.toIsPlainCode.call (1 + init.length)
    have htrimmed : (bareCall e (1 + init.length)).getLast?.any isBlank = false := by
      have hend : ")".toList = [')'] := rfl
      rw [bareCall, callEnd, hend, ← List.append_assoc, List.getLast?_concat]
      decide
    have hreturned := returnLast_lines hls hcall rfl htrimmed (isStatementForm_bareCall e _)
      hending
    rw [callsFrom_concat, captureCall_eq_bareCall, List.dropLast_concat, hcalls, onLines_concat,
      onLines_concat, List.getLast_concat, List.length_append, List.length_singleton,
      captureCall_eq_bareCall, Nat.add_comm init.length 1]
    rw [hlength, Nat.add_comm init.length 1] at hreturned
    simpa only [List.append_assoc, List.singleton_append] using hreturned

/-- Statements that begin as the continuation of a call would, one with a semicolon. -/
def statementsAlike : List (List Char) :=
  ["f(1)".toList, "(a)".toList, "[b]".toList, "-c(() => \x7bd; e\x7d)".toList]

theorem lines_like_continuations_captured :
    instrument "f(1);\n(a);\n[b];\n-c(() => \x7bd; e\x7d);".toList =
        ⟨onLines (callsFrom 1 statementsAlike), (statementsAlike.zipIdx 1).map Prod.swap⟩ ∧
      returnLast (onLines (callsFrom 1 statementsAlike)) =
        ⟨("__scratchpad_capture(f(1), 1);\n__scratchpad_capture((a), 2);\n" ++
            "__scratchpad_capture([b], 3);\n" ++
            "return __scratchpad_capture(-c(() => \x7bd; e\x7d), 4);").toList, some 4⟩ := by
  have hne : statementsAlike ≠ [] := by decide
  have hplain : ∀ e ∈ statementsAlike, IsPlainStatement e := by decide +kernel
  have hsource : onLines (statementsAlike.map (· ++ [';'])) ++ [] =
      "f(1);\n(a);\n[b];\n-c(() => \x7bd; e\x7d);".toList := by decide +kernel
  have hreturned : onLines ((callsFrom 1 statementsAlike).dropLast ++ ["return ".toList ++
      captureCall (statementsAlike.getLast (by decide)) statementsAlike.length]) ++ [] =
        ("__scratchpad_capture(f(1), 1);\n__scratchpad_capture((a), 2);\n" ++
          "__scratchpad_capture([b], 3);\n" ++
          "return __scratchpad_capture(-c(() => \x7bd; e\x7d), 4);").toList := by decide +kernel
  have h := plain_statements_captured hne hplain (Or.inl rfl)
  rw [hsource, hreturned, List.append_nil] at h
  exact h

end SnippetRunner.Script
