import SnippetRunner.Proofs.Source.Progress

/-
  What stands behind an expression. Blanks, comments and a final semicolon may be put in the
  place of others without a change to what the lexer makes of the rest: they open no brace and no
  string, and an expression that is followed by them leaves the lexer in code, or in a string or a
  comment that the next line end leaves.
-/
namespace SnippetRunner.Source

open SnippetRunner.Text

/-! ## One character of lookahead -/

/-- The second character of a mark. -/
def isMark (c : Char) : Bool := c = '/' || c = '*' || c = '{'

/-- Modes that are not those of a comment or of the second character of a mark. -/
def Mode.isSettled : Mode → Bool
  | .code | .quoted _ | .quotedEscape _ | .template | .templateEscape => true
  | .substitutionOpen | .lineComment | .commentOpen | .blockComment | .commentClose => false

namespace Lexer

theorem ne_mark_of_unmarked {next : Option Char} (h : next.any isMark = false) :
    next ≠ some '/' ∧ next ≠ some '*' ∧ next ≠ some '{' := by
  refine ⟨?_, ?_, ?_⟩ <;> rintro rfl <;> exact absurd h (by decide)

theorem stepCode_eq {l : Lexer} {c : Char} {next next' : Option Char}
    (h : ¬(c = '/' ∧ (next = some '/' ∨ next = some '*'))) (h' : next'.any isMark = false) :
    l.stepCode c next = l.stepCode c next' := by
  obtain ⟨hslash, hstar, -⟩ := ne_mark_of_unmarked h'
  unfold stepCode
  by_cases hc : c = '/'
  · have h1 : next ≠ some '/' := fun e => h ⟨hc, Or.inl e⟩
    have h2 : next ≠ some '*' := fun e => h ⟨hc, Or.inr e⟩
    simp [h1, h2, hslash, hstar]
  · simp [hc]

theorem stepTemplate_eq {l : Lexer} {c : Char} {next next' : Option Char}
    (h : ¬(c = '$' ∧ next = some '{')) (h' : next'.any isMark = false) :
    l.stepTemplate c next = l.stepTemplate c next' := by
  obtain ⟨-, -, hbrace⟩ := ne_mark_of_unmarked h'
  unfold stepTemplate
  by_cases hc : c = '$'
  · have h1 : next ≠ some '{' := fun e => h ⟨hc, e⟩
    simp [h1, hbrace]
  · simp [hc]

/-- What follows matters only if it is the second character of a mark. -/
theorem step_eq_of_unmarked (l : Lexer) (c : Char) {next next' : Option Char}
    (h : next.any isMark = false) (h' : next'.any isMark = false) :
    l.step c next = l.step c next' := by
  obtain ⟨hslash, hstar, hbrace⟩ := ne_mark_of_unmarked h
  obtain ⟨-, hstar', -⟩ := ne_mark_of_unmarked h'
  obtain ⟨hslash', -, -⟩ := ne_mark_of_unmarked h'
  unfold step
  cases l.mode with
  | code => exact stepCode_eq (fun e => e.2.elim hslash hstar) h'
  | template => exact stepTemplate_eq (fun e => hbrace e.2) h'
  | blockComment => simp [hslash, hslash']
  | _ => rfl

/-- What follows does not matter to a step that leads neither into a comment nor to the second
character of a mark. -/
theorem step_eq_of_settled {l : Lexer} {c : Char} {next next' : Option Char}
    (h : (l.step c next).2.mode.isSettled = true) (h' : next'.any isMark = false) :
    l.step c next = l.step c next' := by
  obtain ⟨hslash', -, -⟩ := ne_mark_of_unmarked h'
  cases hm : l.mode with
  | code =>
    rw [step_code hm] at h
    rw [step_code hm, step_code hm]
    refine stepCode_eq ?_ h'
    rintro ⟨rfl, rfl | rfl⟩
    · simp [stepCode, Mode.isSettled] at h
    · simp [stepCode, Mode.isSettled] at h
  | template =>
    rw [step_template hm] at h
    rw [step_template hm, step_template hm]
    refine stepTemplate_eq ?_ h'
    rintro ⟨rfl, rfl⟩
    simp [stepTemplate, Mode.isSettled] at h
  | blockComment =>
    rw [step_blockComment hm] at h
    rw [step_blockComment hm, step_blockComment hm]
    split at h
    · simp [Mode.isSettled] at h
    · next hc => rw [if_neg hc, if_neg (by simp [hslash'])]
  | _ =>
    unfold step
    rw [hm]

/-- The last character of a part sees what follows the part; if that makes no difference to it,
the part is read the same way before anything else. -/
theorem glyphsTo_eq_of_last {l : Lexer} {s : List Char} {c : Char} {next next' : Option Char}
    (h : (l.run s (some c)).step c next = (l.run s (some c)).step c next') :
    l.glyphsTo (s ++ [c]) next = l.glyphsTo (s ++ [c]) next' ∧
      l.run (s ++ [c]) next = l.run (s ++ [c]) next' := by
  rw [glyphsTo_concat, glyphsTo_concat, run_concat, run_concat, h]
  exact ⟨rfl, rfl⟩

/-- Behind a character that belongs to no comment the lexer is in none. -/
theorem isSettled_of_not_comment {l : Lexer} {c : Char} {next : Option Char}
    (h : (l.step c next).1.isComment = false) :
    (l.step c next).2.mode.isSettled = true ∨ (l.step c next).2.mode = .substitutionOpen := by
  have hclose (hm : l.mode = .code) : l.closeBrace.2.mode.isSettled = true := by
    rcases l.closeBrace_cases with ⟨outer, -, e⟩ | e
    · rw [e]
      rfl
    · rw [e]
      simp [hm, Mode.isSettled]
  cases hm : l.mode with
  | code =>
    left
    rw [step_code hm] at h ⊢
    unfold stepCode at h ⊢
    split_ifs at h ⊢
    · cases h
    · cases h
    · rfl
    · rfl
    · simp [hm, Mode.isSettled]
    · exact hclose hm
    · simp [hm, Mode.isSettled]
  | quoted quote =>
    left
    rw [step_quoted hm]
    unfold stepQuoted
    split_ifs <;> simp [hm, Mode.isSettled]
  | quotedEscape quote => simp [step_quotedEscape hm, Mode.isSettled]
  | template =>
    rw [step_template hm]
    unfold stepTemplate
    split_ifs <;> simp [hm, Mode.isSettled]
  | templateEscape => simp [step_templateEscape hm, Mode.isSettled]
  | substitutionOpen => simp [step_substitutionOpen hm, Mode.isSettled]
  | lineComment =>
    rw [step_lineComment hm] at h ⊢
    split_ifs at h ⊢
    · exact Or.inl rfl
    · cases h
  | commentOpen => simp [step_commentOpen hm, Region.isComment] at h
  | blockComment =>
    rw [step_blockComment hm] at h
    split_ifs at h <;> cases h
  | commentClose => simp [step_commentClose hm, Region.isComment] at h

theorem isSettled_run {l : Lexer} {text : List Char} {next : Option Char} (hne : text ≠ [])
    (hlast : ∀ g ∈ (l.glyphsTo text next).getLast?, g.isSignificant = true) :
    (l.run text next).mode.isSettled = true ∨ (l.run text next).mode = .substitutionOpen := by
  obtain ⟨init, c, rfl⟩ := text.eq_nil_or_concat'.resolve_left hne
  rw [glyphsTo_concat, List.getLast?_concat] at hlast
  rw [run_concat]
  exact isSettled_of_not_comment (Glyph.isSignificant_iff.mp (hlast _ rfl)).1

end Lexer

/-! ## Slight characters -/

/-- A glyph that may follow an expression: a blank, part of a comment, or a semicolon. -/
def Glyph.isSlight (g : Glyph) : Bool := !g.isSignificant || isBlank g.char || g.char = ';'

/-- How a slight character moves the lexer. -/
inductive Slight : Mode → Char → Mode → Prop
  | code {c : Char} : Slight .code c .code
  | slashes {c : Char} : Slight .code c .lineComment
  | comment {c : Char} : Slight .code c .commentOpen
  | quoted {quote c : Char} (h : c ≠ '\n') : Slight (.quoted quote) c (.quoted quote)
  | quotedEnd {quote : Char} : Slight (.quoted quote) '\n' .code
  | quotedEscape {quote c : Char} : Slight (.quotedEscape quote) c (.quoted quote)
  | template {c : Char} : Slight .template c .template
  | templateEscape {c : Char} : Slight .templateEscape c .template
  | line {c : Char} (h : c ≠ '\n') : Slight .lineComment c .lineComment
  | lineEnd : Slight .lineComment '\n' .code
  | commentOpen {c : Char} : Slight .commentOpen c .blockComment
  | block {c : Char} : Slight .blockComment c .blockComment
  | blockEnd {c : Char} : Slight .blockComment c .commentClose
  | commentClose {c : Char} : Slight .commentClose c .code

/-- A character of code, of a string or of template text that is not slight. -/
theorem not_isSlight {c : Char} {region : Region} (hregion : region.isComment = false)
    (hc : isBlank c = false) (hsemicolon : c ≠ ';') : ¬Glyph.isSlight ⟨c, region⟩ = true := by
  have hblank : isAsciiBlank c = false := by
    by_contra hb
    rw [isBlank_of_isAsciiBlank (by simpa using hb)] at hc
    cases hc
  simp [Glyph.isSlight, Glyph.isSignificant, Glyph.isComment, hregion, hc, hsemicolon, hblank]

namespace Lexer

theorem slight_stepCode {l : Lexer} {c : Char} {next : Option Char} (hm : l.mode = .code)
    (h : Glyph.isSlight ⟨c, (l.stepCode c next).1⟩ = true) :
    ∃ m, (l.stepCode c next).2 = { l with mode := m } ∧ Slight .code c m := by
  unfold stepCode at h ⊢
  split_ifs at h ⊢ with h1 h2 h3 h4 h5 h6
  · exact ⟨_, rfl, .slashes⟩
  · exact ⟨_, rfl, .comment⟩
  · rcases (by simpa using h3 : c = '\'' ∨ c = '"') with rfl | rfl
    · exact absurd h (not_isSlight rfl (by decide) (by decide))
    · exact absurd h (not_isSlight rfl (by decide) (by decide))
  · rw [h4] at h
    exact absurd h (not_isSlight rfl (by decide) (by decide))
  · rw [h5] at h
    exact absurd h (not_isSlight rfl (by decide) (by decide))
  · rw [h6] at h
    exact absurd h (not_isSlight l.closeBrace_not_comment (by decide) (by decide))
  · exact ⟨.code, by rw [← hm], .code⟩

theorem slight_stepQuoted {l : Lexer} {quote c : Char} (hm : l.mode = .quoted quote)
    (hquote : quote = '\'' ∨ quote = '"')
    (h : Glyph.isSlight ⟨c, (l.stepQuoted quote c).1⟩ = true) :
    ∃ m, (l.stepQuoted quote c).2 = { l with mode := m } ∧ Slight (.quoted quote) c m := by
  unfold stepQuoted at h ⊢
  split_ifs at h ⊢ with h1 h2 h3
  · rw [h1] at h
    exact absurd h (not_isSlight rfl (by decide) (by decide))
  · rw [h2] at h
    rcases hquote with rfl | rfl
    · exact absurd h (not_isSlight rfl (by decide) (by decide))
    · exact absurd h (not_isSlight rfl (by decide) (by decide))
  · rw [h3]
    exact ⟨_, rfl, .quotedEnd⟩
  · exact ⟨.quoted quote, by rw [← hm], .quoted h3⟩

theorem slight_stepTemplate {l : Lexer} {c : Char} {next : Option Char} (hm : l.mode = .template)
    (h : Glyph.isSlight ⟨c, (l.stepTemplate c next).1⟩ = true) :
    ∃ m, (l.stepTemplate c next).2 = { l with mode := m } ∧ Slight .template c m := by
  unfold stepTemplate at h ⊢
  split_ifs at h ⊢ with h1 h2 h3
  · rw [h1] at h
    exact absurd h (not_isSlight rfl (by decide) (by decide))
  · rw [h2] at h
    exact absurd h (not_isSlight rfl (by decide) (by decide))
  · simp only [Bool.and_eq_true, decide_eq_true_eq] at h3
    rw [h3.1] at h
    exact absurd h (not_isSlight rfl (by decide) (by decide))
  · exact ⟨.template, by rw [← hm], .template⟩

/-- A slight character opens and closes no brace, so only the mode moves. -/
theorem slight_step {l : Lexer} {c : Char} {next : Option Char} (hready : l.Ready (some c))
    (h : Glyph.isSlight ⟨c, (l.step c next).1⟩ = true) :
    ∃ m, (l.step c next).2 = { l with mode := m } ∧ Slight l.mode c m := by
  unfold Ready at hready
  cases hm : l.mode with
  | code =>
    rw [step_code hm] at h ⊢
    exact slight_stepCode hm h
  | quoted quote =>
    rw [hm] at hready
    rw [step_quoted hm] at h ⊢
    exact slight_stepQuoted hm hready h
  | quotedEscape quote =>
    rw [step_quotedEscape hm]
    exact ⟨_, rfl, .quotedEscape⟩
  | template =>
    rw [step_template hm] at h ⊢
    exact slight_stepTemplate hm h
  | templateEscape =>
    rw [step_templateEscape hm]
    exact ⟨_, rfl, .templateEscape⟩
  | substitutionOpen =>
    rw [hm] at hready
    obtain rfl : c = '{' := Option.some.inj hready
    rw [step_substitutionOpen hm] at h
    exact absurd h (not_isSlight rfl (by decide) (by decide))
  | lineComment =>
    rw [step_lineComment hm]
    split_ifs with h1
    · rw [h1]
      exact ⟨_, rfl, .lineEnd⟩
    · exact ⟨.lineComment, by rw [← hm], .line h1⟩
  | commentOpen =>
    rw [step_commentOpen hm]
    exact ⟨_, rfl, .commentOpen⟩
  | blockComment =>
    rw [step_blockComment hm]
    split_ifs
    · exact ⟨_, rfl, .blockEnd⟩
    · exact ⟨.blockComment, by rw [← hm], .block⟩
  | commentClose =>
    rw [step_commentClose hm]
    exact ⟨_, rfl, .commentClose⟩

end Lexer

/-- Slight characters one after the other. -/
inductive SlightRun : Mode → List Char → Mode → Prop
  | nil {m : Mode} : SlightRun m [] m
  | cons {m m' m'' : Mode} {c : Char} {s : List Char} (step : Slight m c m')
      (rest : SlightRun m' s m'') : SlightRun m (c :: s) m''

def Mode.isTemplate : Mode → Bool
  | .template | .templateEscape => true
  | _ => false

/-- Modes that a line end leaves, at once or after one more character. -/
def Mode.endsWithLine : Mode → Bool
  | .quoted _ | .quotedEscape _ | .lineComment => true
  | .code | .template | .templateEscape | .substitutionOpen => false
  | .commentOpen | .blockComment | .commentClose => false

/-- Modes inside a block comment. -/
def Mode.isBlock : Mode → Bool
  | .commentOpen | .blockComment | .commentClose => true
  | _ => false

theorem SlightRun.isTemplate {m m' : Mode} {s : List Char} (h : SlightRun m s m')
    (hm : m.isTemplate = true) : m'.isTemplate = true := by
  induction h with
  | nil => exact hm
  | cons step _ ih =>
    refine ih ?_
    cases step <;> first | rfl | cases hm

theorem SlightRun.endsWithLine {m m' : Mode} {s : List Char} (h : SlightRun m s m')
    (hm : m.endsWithLine = true) (hs : '\n' ∉ s) : m'.endsWithLine = true := by
  induction h with
  | nil => exact hm
  | cons step _ ih =>
    refine ih ?_ fun hmem => hs (List.mem_cons_of_mem _ hmem)
    cases step <;> first | rfl | exact absurd (List.mem_cons_self ..) hs | cases hm

theorem Mode.not_inComment {m : Mode} (h : m.isSettled = true ∨ m = .substitutionOpen) :
    m.isBlock = false ∧ m ≠ .lineComment := by
  cases m <;> simp [isSettled, isBlock] at h ⊢

namespace Lexer

theorem slight_run {l : Lexer} {s : List Char} {next : Option Char}
    (hready : l.Ready (s.head?.or next)) (h : ∀ g ∈ l.glyphsTo s next, g.isSlight = true) :
    ∃ m, l.run s next = { l with mode := m } ∧ SlightRun l.mode s m := by
  induction s generalizing l with
  | nil => exact ⟨l.mode, rfl, .nil⟩
  | cons c s ih =>
    rw [glyphsTo] at h
    obtain ⟨m, hstep, hslight⟩ := slight_step hready (h _ (List.mem_cons_self ..))
    have hnext := ih (ready_step hready) fun g hg => h g (List.mem_cons_of_mem _ hg)
    rw [hstep] at hnext
    obtain ⟨m', hrun, hslight'⟩ := hnext
    exact ⟨m', by rw [run, hstep, hrun], .cons hslight hslight'⟩

/-- Blanks and semicolons do not leave a block comment, nor, within a line, a line comment. -/
theorem isComment_of_inComment {l : Lexer} {s : List Char} {next : Option Char}
    (hready : l.Ready (s.head?.or next))
    (hm : l.mode.isBlock = true ∨ (l.mode = .lineComment ∧ '\n' ∉ s))
    (hs : ∀ c ∈ s, isBlank c = true ∨ c = ';') :
    ∀ g ∈ l.glyphsTo s next, g.isComment = true := by
  induction s generalizing l with
  | nil => intro g hg; cases hg
  | cons c s ih =>
    have hc := hs c (List.mem_cons_self ..)
    have hs' : ∀ d ∈ s, isBlank d = true ∨ d = ';' := fun d hd => hs d (List.mem_cons_of_mem _ hd)
    have hstep : (l.step c (s.head?.or next)).1.isComment = true ∧
        ((l.step c (s.head?.or next)).2.mode.isBlock = true ∨
          ((l.step c (s.head?.or next)).2.mode = .lineComment ∧ '\n' ∉ s)) := by
      unfold Ready at hready
      cases hl : l.mode with
      | commentOpen => simp [step_commentOpen hl, Mode.isBlock, Region.isComment]
      | blockComment =>
        rw [step_blockComment hl]
        split
        · exact ⟨rfl, Or.inl rfl⟩
        · exact ⟨rfl, Or.inl (by rw [hl]; rfl)⟩
      | commentClose =>
        rw [hl] at hready
        obtain rfl : c = '/' := Option.some.inj hready
        exact absurd hc (by decide)
      | lineComment =>
        have hfeed : '\n' ∉ c :: s := by
          rcases hm with hm | hm
          · rw [hl] at hm; cases hm
          · exact hm.2
        have hne : c ≠ '\n' := fun e => hfeed (by rw [e]; exact List.mem_cons_self ..)
        rw [step_lineComment hl, if_neg hne]
        exact ⟨rfl, Or.inr ⟨hl, fun h => hfeed (List.mem_cons_of_mem _ h)⟩⟩
      | _ => rw [hl] at hm; simp [Mode.isBlock] at hm
    intro g hg
    rw [glyphsTo] at hg
    rcases List.mem_cons.mp hg with rfl | hg
    · exact hstep.1
    · exact ih (ready_step hready) hstep.2 hs' g hg

/-- Where an expression ends: `dropped` holds the blanks and the semicolon that are cut off
behind it, and nothing significant follows them. -/
structure Ends (l : Lexer) (dropped trailing : List Char) (next : Option Char) : Prop where
  ready : l.Ready ((dropped ++ trailing).head?.or next)
  blanks : ∀ c ∈ dropped, isBlank c = true ∨ c = ';'
  last : ∀ g ∈ (l.glyphsTo dropped (trailing.head?.or next)).getLast?, g.isSignificant = true
  settled : dropped = [] → l.mode.isSettled = true ∨ l.mode = .substitutionOpen
  trailing : ∀ g ∈ (l.run dropped (trailing.head?.or next)).glyphsTo trailing next,
    g.isSignificant = false

theorem Ends.slight {l : Lexer} {dropped trailing : List Char} {next : Option Char}
    (h : Ends l dropped trailing next) :
    ∀ g ∈ l.glyphsTo (dropped ++ trailing) next, g.isSlight = true := by
  intro g hg
  rw [glyphsTo_append] at hg
  rcases List.mem_append.mp hg with hg | hg
  · have hc : g.char ∈ dropped := by
      rw [← map_char_glyphsTo l dropped (trailing.head?.or next)]
      exact List.mem_map_of_mem hg
    rcases h.blanks _ hc with hb | hb <;> simp [Glyph.isSlight, hb]
  · simp [Glyph.isSlight, h.trailing g hg]

/-- An expression does not end in a comment, unless a line end is cut off behind it. -/
theorem Ends.not_inComment {l : Lexer} {dropped trailing : List Char} {next : Option Char}
    (h : Ends l dropped trailing next) :
    l.mode.isBlock = false ∧ (l.mode = .lineComment → '\n' ∈ dropped) := by
  cases dropped.eq_nil_or_concat' with
  | inl hnil =>
    obtain ⟨hblock, hline⟩ := Mode.not_inComment (h.settled hnil)
    exact ⟨hblock, fun e => absurd e hline⟩
  | inr hconcat =>
    obtain ⟨init, c, rfl⟩ := hconcat
    have hready : l.Ready ((init ++ [c]).head?.or (trailing.head?.or next)) := by
      rw [← head?_append_or]
      exact h.ready
    have hnot : ¬(l.mode.isBlock = true ∨ (l.mode = .lineComment ∧ '\n' ∉ init ++ [c])) := by
      intro hm
      have hcomment := isComment_of_inComment hready hm h.blanks
      have hlast := h.last
      rw [glyphsTo_concat] at hcomment hlast
      rw [List.getLast?_concat] at hlast
      have hsig := hlast _ rfl
      rw [Glyph.isSignificant, hcomment _ (by simp)] at hsig
      cases hsig
    refine ⟨by simpa using fun e => hnot (Or.inl e), fun e => ?_⟩
    by_contra hmem
    exact hnot (Or.inr ⟨e, hmem⟩)

theorem Ends.ne_substitutionOpen {l : Lexer} {dropped trailing : List Char} {next : Option Char}
    (h : Ends l dropped trailing next) (hnext : next ≠ some '{') : l.mode ≠ .substitutionOpen := by
  intro hm
  have hready := h.ready
  have hslight := h.slight
  cases hs : dropped ++ trailing with
  | nil =>
    rw [hs, Ready, hm] at hready
    exact hnext hready
  | cons c s =>
    rw [hs, glyphsTo] at hslight
    rw [hs] at hready
    obtain ⟨m, -, hmove⟩ := slight_step hready (hslight _ (List.mem_cons_self ..))
    rw [hm] at hmove
    cases hmove

/-- After the end of an expression that returns to code, only the mode has changed. -/
theorem Ends.run_eq {l : Lexer} {dropped trailing : List Char} {next : Option Char}
    (h : Ends l dropped trailing next)
    (hcode : (l.run (dropped ++ trailing) next).mode = .code) :
    l.run (dropped ++ trailing) next = { l with mode := .code } ∧
      (l.mode = .code ∨ (l.mode.endsWithLine = true ∧ '\n' ∈ dropped ++ trailing)) := by
  obtain ⟨m, hrun, hslight⟩ := slight_run h.ready h.slight
  rw [hrun] at hcode ⊢
  obtain rfl : m = .code := hcode
  refine ⟨rfl, ?_⟩
  have hblock := h.not_inComment.1
  have hends (hm : l.mode.endsWithLine = true) : '\n' ∈ dropped ++ trailing := by
    by_contra hmem
    have := hslight.endsWithLine hm hmem
    cases this
  have hopen (t : List Char) : ¬SlightRun .substitutionOpen t .code := by
    intro ht
    cases ht with
    | cons step _ => cases step
  have htemplate : l.mode.isTemplate = false := by
    by_contra hm
    have := hslight.isTemplate (by simpa using hm)
    cases this
  cases hm : l.mode with
  | code => exact Or.inl rfl
  | quoted quote => exact Or.inr ⟨rfl, hends (by rw [hm]; rfl)⟩
  | quotedEscape quote => exact Or.inr ⟨rfl, hends (by rw [hm]; rfl)⟩
  | lineComment => exact Or.inr ⟨rfl, hends (by rw [hm]; rfl)⟩
  | template => rw [hm] at htemplate; cases htemplate
  | templateEscape => rw [hm] at htemplate; cases htemplate
  | substitutionOpen => rw [hm] at hslight; exact absurd hslight (hopen _)
  | commentOpen => rw [hm] at hblock; cases hblock
  | blockComment => rw [hm] at hblock; cases hblock
  | commentClose => rw [hm] at hblock; cases hblock

/-- What is cut off behind an expression does not matter to how it is read. -/
theorem Ends.same_reading {l : Lexer} {s dropped trailing : List Char} {c : Char}
    {next next' : Option Char}
    (h : Ends (l.run (s ++ [c]) ((dropped ++ trailing).head?.or next)) dropped trailing next)
    (hnext : next ≠ some '{') (hnext' : next'.any isMark = false) :
    l.glyphsTo (s ++ [c]) ((dropped ++ trailing).head?.or next) = l.glyphsTo (s ++ [c]) next' ∧
      l.run (s ++ [c]) ((dropped ++ trailing).head?.or next) = l.run (s ++ [c]) next' := by
  apply glyphsTo_eq_of_last
  cases hd : dropped with
  | nil =>
    have hsettled := (h.settled hd).resolve_right (h.ne_substitutionOpen hnext)
    rw [run_concat, hd] at hsettled
    exact step_eq_of_settled hsettled hnext'
  | cons d rest =>
    refine step_eq_of_unmarked _ _ ?_ hnext'
    have hblank := h.blanks d (by rw [hd]; exact List.mem_cons_self ..)
    rw [List.cons_append, List.head?_cons, Option.some_or, Option.any_some]
    cases hmark : isMark d with
    | false => rfl
    | true =>
      simp only [isMark, Bool.or_eq_true, decide_eq_true_eq] at hmark
      rcases hmark with (rfl | rfl) | rfl <;> exact absurd hblank (by decide)

/-- A part of what follows may be taken for what follows. -/
theorem Ends.of_append {l : Lexer} {dropped a b : List Char} {next : Option Char}
    (h : Ends l dropped (a ++ b) next) : Ends l dropped a (b.head?.or next) where
  ready := by
    have hready := h.ready
    rwa [← List.append_assoc, head?_append_or] at hready
  blanks := h.blanks
  last := by
    have hlast := h.last
    rwa [head?_append_or] at hlast
  settled := h.settled
  trailing := by
    intro g hg
    refine h.trailing g ?_
    rw [head?_append_or, glyphsTo_append]
    exact List.mem_append_left _ hg

end Lexer

/-! ## Closing texts -/

/-- A character that neither opens nor closes anything for the lexer. -/
def isPlain (c : Char) : Bool :=
  !(['/', '\'', '"', '\x60', '{', '}', '\\', '\n', '$', '*'].contains c)

/-- The mode after a plain character. -/
def Mode.unescaped : Mode → Mode
  | .quotedEscape quote => .quoted quote
  | m => m

theorem Mode.unescaped_eq_code {m : Mode} : m.unescaped = .code ↔ m = .code := by
  cases m <;> simp [unescaped]

theorem Mode.unescaped_of_endsWithLine {m : Mode} (h : m.endsWithLine = true)
    (hline : m ≠ .lineComment) : ∃ quote, m.unescaped = .quoted quote := by
  cases m with
  | quoted quote => exact ⟨quote, rfl⟩
  | quotedEscape quote => exact ⟨quote, rfl⟩
  | lineComment => exact absurd rfl hline
  | _ => cases h

namespace Lexer

theorem step_plain {l : Lexer} {c : Char} (hready : l.Ready (some c))
    (hm : l.mode = .code ∨ l.mode.endsWithLine = true) (hc : isPlain c = true)
    (next : Option Char) :
    (l.step c next).2 = { l with mode := l.mode.unescaped } ∧
      ((l.step c next).1 = .code ↔ l.mode = .code) := by
  have hne : ∀ d ∈ ['/', '\'', '"', '\x60', '{', '}', '\\', '\n', '$', '*'], c ≠ d := by
    rintro d hd rfl
    simp only [isPlain, Bool.not_eq_true', List.contains_eq_mem, decide_eq_false_iff_not] at hc
    exact hc hd
  simp only [List.mem_cons, List.not_mem_nil, or_false, forall_eq_or_imp, forall_eq] at hne
  obtain ⟨h1, h2, h3, h4, h5, h6, h7, h8, h9, h10⟩ := hne
  unfold Ready at hready
  cases hl : l.mode with
  | code =>
    rw [step_code hl]
    simp only [stepCode, h1, h2, h3, h4, h5, h6, decide_false, Bool.false_and, Bool.false_eq_true,
      if_false, Bool.or_self, Mode.unescaped, iff_self, and_true]
    rw [← hl]
  | quoted quote =>
    rw [hl] at hready
    have hq : c ≠ quote := by rcases hready with rfl | rfl <;> assumption
    rw [step_quoted hl]
    simp only [stepQuoted, h7, hq, h8, if_false, Mode.unescaped, reduceCtorEq, and_true]
    rw [← hl]
  | quotedEscape quote => simp [step_quotedEscape hl, Mode.unescaped]
  | lineComment =>
    rw [step_lineComment hl]
    simp only [h8, if_false, Mode.unescaped, reduceCtorEq, and_true]
    rw [← hl]
  | _ => rw [hl] at hm; simp [Mode.endsWithLine] at hm

/-- Plain characters of code. -/
theorem plain_code {l : Lexer} {s : List Char} (hm : l.mode = .code)
    (hs : ∀ c ∈ s, isPlain c = true) (next : Option Char) :
    l.glyphsTo s next = s.map (⟨·, .code⟩) ∧ l.run s next = l := by
  induction s with
  | nil => exact ⟨rfl, rfl⟩
  | cons c s ih =>
    have hready : l.Ready (some c) := by rw [Ready, hm]; trivial
    obtain ⟨hstep, hregion⟩ :=
      step_plain hready (Or.inl hm) (hs c (List.mem_cons_self ..)) (s.head?.or next)
    have hmode : l.mode.unescaped = l.mode := by rw [hm]; rfl
    have hl : (l.step c (s.head?.or next)).2 = l := by rw [hstep, hmode]
    obtain ⟨hglyphs, hrun⟩ := ih fun d hd => hs d (List.mem_cons_of_mem _ hd)
    rw [glyphsTo, run, hl, hglyphs, hrun, hregion.mpr hm]
    exact ⟨rfl, rfl⟩

theorem unescaped_unescaped (m : Mode) : m.unescaped.unescaped = m.unescaped := by
  cases m <;> rfl

theorem run_plain {l : Lexer} {s : List Char} {next : Option Char}
    (hready : l.Ready (s.head?.or next)) (hm : l.mode = .code ∨ l.mode.endsWithLine = true)
    (hs : ∀ c ∈ s, isPlain c = true) (hne : s ≠ []) :
    l.run s next = { l with mode := l.mode.unescaped } := by
  induction s generalizing l with
  | nil => exact absurd rfl hne
  | cons c s ih =>
    have hstep := (step_plain hready hm (hs c (List.mem_cons_self ..)) (s.head?.or next)).1
    have hready' : (l.step c (s.head?.or next)).2.Ready (s.head?.or next) := ready_step hready
    rw [run]
    rw [hstep] at hready' ⊢
    cases s with
    | nil => rfl
    | cons d s =>
      rw [ih hready' ?_ (fun e he => hs e (List.mem_cons_of_mem _ he)) (List.cons_ne_nil _ _),
        unescaped_unescaped]
      cases hl : l.mode <;> simp [hl, Mode.unescaped, Mode.endsWithLine] at hm ⊢

theorem step_unescaped_newline {l : Lexer} {next : Option Char} (hready : l.Ready (some '\n'))
    (hm : l.mode = .code ∨ l.mode.endsWithLine = true) (he : l.mode.unescaped = l.mode) :
    (l.step '\n' next).2 = { l with mode := .code } := by
  unfold Ready at hready
  cases hl : l.mode with
  | code =>
    rw [step_code hl]
    simp only [stepCode, Char.reduceEq, decide_false, Bool.false_and, Bool.false_eq_true, if_false,
      Bool.or_self]
    rw [← hl]
  | quoted quote =>
    rw [hl] at hready
    have hq : '\n' ≠ quote := by rcases hready with rfl | rfl <;> decide
    simp [step_quoted hl, stepQuoted, hq]
  | lineComment => simp [step_lineComment hl]
  | quotedEscape quote => rw [hl] at he; cases he
  | _ => rw [hl] at hm; simp [Mode.endsWithLine] at hm

/-- Plain characters and a line end lead back to code. -/
theorem run_plain_newline {l : Lexer} {s : List Char} {next : Option Char}
    (hready : l.Ready ((s ++ ['\n']).head?)) (hm : l.mode = .code ∨ l.mode.endsWithLine = true)
    (hs : ∀ c ∈ s, isPlain c = true) (hne : s ≠ []) :
    l.run (s ++ ['\n']) next = { l with mode := .code } := by
  have hready : l.Ready (s.head?.or (some '\n')) := by
    rwa [List.head?_append] at hready
  have hrun := run_plain hready hm hs hne
  have hready' := ready_run hready
  rw [run_concat]
  rw [hrun] at hready' ⊢
  rw [step_unescaped_newline hready' ?_ (unescaped_unescaped _)]
  cases hl : l.mode <;> simp [hl, Mode.unescaped, Mode.endsWithLine] at hm ⊢

theorem run_newlines {l : Lexer} {s : List Char} {next : Option Char} (hm : l.mode = .code)
    (hs : ∀ c ∈ s, c = '\n') : l.run s next = l := by
  induction s with
  | nil => rfl
  | cons c s ih =>
    obtain rfl := hs c (List.mem_cons_self ..)
    have hready : l.Ready (some '\n') := by rw [Ready, hm]; trivial
    have hstep : (l.step '\n' (s.head?.or next)).2 = l := by
      rw [step_unescaped_newline hready (Or.inl hm) (by rw [hm]; rfl), ← hm]
    rw [run, hstep, ih fun d hd => hs d (List.mem_cons_of_mem _ hd)]

/-- A semicolon and the line ends behind an expression lead back to code. -/
theorem run_semicolon {l : Lexer} {feeds : List Char} {next : Option Char}
    (hready : l.Ready (some ';'))
    (hm : l.mode = .code ∨ (l.mode.endsWithLine = true ∧ feeds ≠ []))
    (hfeeds : ∀ c ∈ feeds, c = '\n') :
    l.run (';' :: feeds) next = { l with mode := .code } := by
  have hplain : ∀ c ∈ [';'], isPlain c = true := List.all_eq_true.mp (by decide)
  rcases hm with hm | ⟨hm, hne⟩
  · have hstep := (plain_code hm hplain (feeds.head?.or next)).2
    rw [← List.singleton_append, run_append, hstep, run_newlines hm hfeeds, ← hm]
  · obtain ⟨c, feeds, rfl⟩ := List.exists_cons_of_ne_nil hne
    obtain rfl := hfeeds c (List.mem_cons_self ..)
    have hstep := @run_plain_newline l [';'] (feeds.head?.or next) hready (Or.inr hm) hplain
      (List.cons_ne_nil _ _)
    have hsplit : ';' :: '\n' :: feeds = ([';'] ++ ['\n']) ++ feeds := rfl
    rw [hsplit, run_append, hstep,
      run_newlines rfl fun d hd => hfeeds d (List.mem_cons_of_mem _ hd)]

end Lexer

end SnippetRunner.Source
