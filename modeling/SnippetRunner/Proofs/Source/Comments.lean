import SnippetRunner.Proofs.Source.Walk

/-
  How comments begin. A comment that stands behind anything else opens with a slash, so it never
  goes on with a word.
-/
namespace SnippetRunner.Source

open SnippetRunner.Text

/-- The lexer is inside a comment. -/
def Mode.inComment : Mode → Bool
  | .lineComment | .commentOpen | .blockComment | .commentClose => true
  | _ => false

/-- What reading `c` in mode `m` may come to: a comment that is under way, or that `c` opens, or
something else, with no comment open behind it. -/
def Read (m : Mode) (c : Char) (read : Region × Lexer) : Prop :=
  (read.1.isComment = true ∧ (m.inComment = true ∨ c = '/')) ∨
    (read.1.isComment = false ∧ read.2.mode.inComment = false)

namespace Lexer

variable {l : Lexer} {c : Char} {next : Option Char}

theorem read_closeBrace (hm : l.mode = .code) : Read .code c l.closeBrace := by
  right
  rcases l.closeBrace_cases with ⟨outer, -, e⟩ | e
  · rw [e]
    exact ⟨rfl, rfl⟩
  · rw [e]
    exact ⟨rfl, by rw [hm]; rfl⟩

theorem read_stepCode (hm : l.mode = .code) : Read .code c (l.stepCode c next) := by
  unfold stepCode
  split_ifs with h1 h2
  · exact Or.inl ⟨rfl, Or.inr (by simp at h1; exact h1.1)⟩
  · exact Or.inl ⟨rfl, Or.inr (by simp at h2; exact h2.1)⟩
  · exact Or.inr ⟨rfl, rfl⟩
  · exact Or.inr ⟨rfl, rfl⟩
  · exact Or.inr ⟨rfl, by rw [hm]; rfl⟩
  · exact read_closeBrace hm
  · exact Or.inr ⟨rfl, by rw [hm]; rfl⟩

theorem read_stepQuoted {quote : Char} (hm : l.mode = .quoted quote) :
    Read (.quoted quote) c (l.stepQuoted quote c) := by
  right
  unfold stepQuoted
  split_ifs
  · exact ⟨rfl, rfl⟩
  · exact ⟨rfl, rfl⟩
  · exact ⟨rfl, rfl⟩
  · exact ⟨rfl, by rw [hm]; rfl⟩

theorem read_stepTemplate (hm : l.mode = .template) :
    Read .template c (l.stepTemplate c next) := by
  right
  unfold stepTemplate
  split_ifs
  · exact ⟨rfl, rfl⟩
  · exact ⟨rfl, rfl⟩
  · exact ⟨rfl, rfl⟩
  · exact ⟨rfl, by rw [hm]; rfl⟩

theorem read_step (l : Lexer) (c : Char) (next : Option Char) :
    Read l.mode c (l.step c next) := by
  cases hm : l.mode with
  | code => rw [step_code hm]; exact read_stepCode hm
  | quoted quote => rw [step_quoted hm]; exact read_stepQuoted hm
  | quotedEscape quote => rw [step_quotedEscape hm]; exact Or.inr ⟨rfl, rfl⟩
  | template => rw [step_template hm]; exact read_stepTemplate hm
  | templateEscape => rw [step_templateEscape hm]; exact Or.inr ⟨rfl, rfl⟩
  | substitutionOpen => rw [step_substitutionOpen hm]; exact Or.inr ⟨rfl, rfl⟩
  | lineComment =>
    rw [step_lineComment hm]
    split
    · exact Or.inr ⟨rfl, rfl⟩
    · exact Or.inl ⟨rfl, Or.inl rfl⟩
  | commentOpen => rw [step_commentOpen hm]; exact Or.inl ⟨rfl, Or.inl rfl⟩
  | blockComment =>
    rw [step_blockComment hm]
    split
    · exact Or.inl ⟨rfl, Or.inl rfl⟩
    · exact Or.inl ⟨rfl, Or.inl rfl⟩
  | commentClose => rw [step_commentClose hm]; exact Or.inl ⟨rfl, Or.inl rfl⟩

end Lexer

/-- A comment behind a character that belongs to none opens with a slash. -/
theorem char_of_comment_begins {source : List Char} {before after : List Cell} {c d : Cell}
    (h : cells source = before ++ c :: d :: after) (hc : c.isComment = false)
    (hd : d.isComment = true) : d.char = '/' := by
  have hsplit : cells source = (before ++ [c] ++ [d]) ++ after := by
    rw [h]
    simp
  have hglyphs := map_glyph_of_append hsplit
  simp only [List.map_append, List.map_singleton, Lexer.glyphsTo_concat, Lexer.run_concat]
    at hglyphs
  obtain ⟨hinit, hlast⟩ := List.append_inj' hglyphs rfl
  have hfirst := (List.append_inj' hinit rfl).2
  rw [List.cons.injEq] at hfirst hlast
  have hc : c.glyph.region.isComment = false := hc
  have hd : d.glyph.region.isComment = true := hd
  rw [hfirst.1] at hc
  rw [hlast.1] at hd
  rcases Lexer.read_step _ c.char (some d.char) with ⟨hcomment, -⟩ | ⟨-, hout⟩
  · rw [hcomment] at hc
    cases hc
  · rcases Lexer.read_step _ d.char _ with ⟨-, hin | hslash⟩ | ⟨hnot, -⟩
    · rw [hout] at hin
      cases hin
    · exact hslash
    · rw [hnot] at hd
      cases hd

end SnippetRunner.Source
