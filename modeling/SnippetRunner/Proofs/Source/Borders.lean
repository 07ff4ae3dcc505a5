import SnippetRunner.Proofs.Source.Comments

/-
  Where the regions of a script meet. What begins behind code begins with a quote, a slash or the
  brace that closes a template expression; code begins behind a quote, a slash or the brace that
  opens one, unless a line end is its first character. So none of these neighbours of a border is
  part of a word, and no word of the code can go on in a region beside it.
-/
namespace SnippetRunner.Source

open SnippetRunner.Text

/-- Characters next to a border of the code: the marks of strings, templates and comments, and
the braces of template expressions. -/
def borderChars : List Char := ['\'', '"', '\x60', '/', '\x7b', '\x7d']

/-- What holds of two neighbouring glyphs in different regions. -/
structure Borders (g h : Glyph) : Prop where
  leavesCode : g.isCode = true → h.isCode = false → h.char ∈ borderChars
  entersCode : g.isCode = false → h.isCode = true → g.char ∈ borderChars ∨ h.char = '\n'
  opensComment : g.isComment = false → h.isComment = true → h.char = '/'
  closesComment : g.isComment = true → h.isComment = false → g.char = '/' ∨ h.char = '\n'

namespace Lexer

variable {l : Lexer} {c : Char} {next : Option Char}

theorem mem_borderChars_of_leaves (hm : l.mode = .code) (h : (l.step c next).1 ≠ .code) :
    c ∈ borderChars := by
  rw [step_code hm] at h
  unfold stepCode at h
  split_ifs at h with h1 h2 h3 h4 h5 h6
  · rw [Bool.and_eq_true, decide_eq_true_eq] at h1
    simp [borderChars, h1.1]
  · rw [Bool.and_eq_true, decide_eq_true_eq] at h2
    simp [borderChars, h2.1]
  · rw [Bool.or_eq_true, decide_eq_true_eq, decide_eq_true_eq] at h3
    rcases h3 with rfl | rfl <;> decide
  · rw [h4]
    decide
  · exact absurd rfl h
  · rw [h6]
    decide
  · exact absurd rfl h

/-- Outside the code only a line end is code. -/
theorem code_or_newline (h : (l.step c next).1 = .code) : l.mode = .code ∨ c = '\n' := by
  cases hm : l.mode with
  | code => exact Or.inl rfl
  | quoted quote =>
    rw [step_quoted hm, stepQuoted] at h
    split_ifs at h with h1 h2 h3
    exact Or.inr h3
  | quotedEscape quote => simp [step_quotedEscape hm] at h
  | template =>
    rw [step_template hm, stepTemplate] at h
    split_ifs at h
  | templateEscape => simp [step_templateEscape hm] at h
  | substitutionOpen => simp [step_substitutionOpen hm] at h
  | lineComment =>
    rw [step_lineComment hm] at h
    split_ifs at h with h1
    exact Or.inr h1
  | commentOpen => simp [step_commentOpen hm] at h
  | blockComment =>
    rw [step_blockComment hm] at h
    split_ifs at h
  | commentClose => simp [step_commentClose hm] at h

/-- What leads back to the code and is no part of it closes something, or opens a template
expression. -/
theorem mem_borderChars_of_enters (hready : l.Ready (some c)) (h : (l.step c next).1 ≠ .code)
    (hmode : (l.step c next).2.mode = .code) : c ∈ borderChars := by
  rw [Ready] at hready
  cases hm : l.mode with
  | code => exact mem_borderChars_of_leaves hm h
  | quoted quote =>
    rw [hm] at hready
    rw [step_quoted hm] at h hmode
    unfold stepQuoted at h hmode
    split_ifs at h hmode with h1 h2 h3
    · rcases hready with rfl | rfl <;> rw [h2] <;> decide
    · exact absurd rfl h
    · rw [hm] at hmode
      cases hmode
  | quotedEscape quote =>
    rw [step_quotedEscape hm] at hmode
    cases hmode
  | template =>
    rw [step_template hm] at hmode
    unfold stepTemplate at hmode
    split_ifs at hmode with h1 h2
    · rw [h2]
      decide
    · rw [hm] at hmode
      cases hmode
  | templateEscape =>
    rw [step_templateEscape hm] at hmode
    cases hmode
  | substitutionOpen =>
    rw [hm] at hready
    rw [Option.some.inj hready]
    decide
  | lineComment =>
    rw [step_lineComment hm] at h hmode
    split_ifs at h hmode
    · exact absurd rfl h
    · rw [hm] at hmode
      cases hmode
  | commentOpen =>
    rw [step_commentOpen hm] at hmode
    cases hmode
  | blockComment =>
    rw [step_blockComment hm] at hmode
    split_ifs at hmode
    rw [hm] at hmode
    cases hmode
  | commentClose =>
    rw [hm] at hready
    rw [Option.some.inj hready]
    decide

/-- A comment under way goes on, unless a line end closes it. -/
theorem comment_or_newline (hm : l.mode.inComment = true) :
    (l.step c next).1.isComment = true ∨ c = '\n' := by
  cases hl : l.mode with
  | lineComment =>
    rw [step_lineComment hl]
    split_ifs with h1
    · exact Or.inr h1
    · exact Or.inl rfl
  | commentOpen => exact Or.inl (by rw [step_commentOpen hl]; rfl)
  | blockComment =>
    left
    rw [step_blockComment hl]
    split_ifs <;> rfl
  | commentClose => exact Or.inl (by rw [step_commentClose hl]; rfl)
  | _ =>
    rw [hl] at hm
    cases hm

/-- What belongs to a comment and leads out of it is the slash that closes it. -/
theorem slash_of_closes (hready : l.Ready (some c)) (h : (l.step c next).1.isComment = true)
    (hmode : (l.step c next).2.mode.inComment = false) : c = '/' := by
  rw [Ready] at hready
  rcases read_step l c next with ⟨-, hin | hslash⟩ | ⟨hnot, -⟩
  · cases hm : l.mode with
    | lineComment =>
      rw [step_lineComment hm] at h hmode
      split_ifs at h hmode
      · cases h
      · rw [hm] at hmode
        cases hmode
    | commentOpen =>
      rw [step_commentOpen hm] at hmode
      cases hmode
    | blockComment =>
      rw [step_blockComment hm] at hmode
      split_ifs at hmode
      · cases hmode
      · rw [hm] at hmode
        cases hmode
    | commentClose =>
      rw [hm] at hready
      exact Option.some.inj hready
    | _ =>
      rw [hm] at hin
      cases hin
  · exact hslash
  · rw [hnot] at h
    cases h

theorem borders_step (hready : l.Ready (some c)) (d : Char) (after : Option Char) :
    Borders ⟨c, (l.step c (some d)).1⟩ ⟨d, ((l.step c (some d)).2.step d after).1⟩ where
  leavesCode hg hh := by
    have hg : (l.step c (some d)).1 = .code := by simpa [Glyph.isCode] using hg
    exact mem_borderChars_of_leaves (mode_of_region_code hg) (by simpa [Glyph.isCode] using hh)
  entersCode hg hh := by
    have hh : ((l.step c (some d)).2.step d after).1 = .code := by
      simpa [Glyph.isCode] using hh
    refine (code_or_newline hh).imp_left fun hmode => ?_
    exact mem_borderChars_of_enters hready (by simpa [Glyph.isCode] using hg) hmode
  opensComment hg hh := by
    have hout : (l.step c (some d)).2.mode.inComment = false := by
      rcases read_step l c (some d) with ⟨hcomment, -⟩ | ⟨-, hout⟩
      · rw [show (l.step c (some d)).1.isComment = false from hg] at hcomment
        cases hcomment
      · exact hout
    rcases read_step (l.step c (some d)).2 d after with ⟨-, hin | hslash⟩ | ⟨hnot, -⟩
    · rw [hout] at hin
      cases hin
    · exact hslash
    · rw [show ((l.step c (some d)).2.step d after).1.isComment = true from hh] at hnot
      cases hnot
  closesComment hg hh := by
    cases hm : (l.step c (some d)).2.mode.inComment with
    | true =>
      have hh : ¬((l.step c (some d)).2.step d after).1.isComment = true := Bool.eq_false_iff.mp hh
      exact Or.inr ((comment_or_newline hm).resolve_left hh)
    | false => exact Or.inl (slash_of_closes hready hg hm)

theorem isChain_glyphsFrom {s : List Char} (hready : l.Ready s.head?) :
    (l.glyphsFrom s).IsChain Borders := by
  induction s generalizing l with
  | nil => exact .nil
  | cons c s ih =>
    cases s with
    | nil => exact .singleton _
    | cons d s => exact .cons_cons (borders_step hready d s.head?) (ih (ready_step hready))

end Lexer

theorem isChain_glyphs (source : List Char) : (glyphs source).IsChain Borders :=
  Lexer.isChain_glyphsFrom (Lexer.ready_initial _)

end SnippetRunner.Source
