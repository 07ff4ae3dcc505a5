import SnippetRunner.Proofs.Source.Comments

/-
  Texts without their comments. The lexer comes out of a comment in the state in which it went
  in, so what it reads apart from the comments alone tells in which state it is.
-/
namespace SnippetRunner.Source

open SnippetRunner.Text

/-- The characters outside comments. -/
def uncommented (gs : List Glyph) : List Char :=
  (gs.filter (!·.isComment)).map Glyph.char

theorem uncommented_append (a b : List Glyph) :
    uncommented (a ++ b) = uncommented a ++ uncommented b := by
  rw [uncommented, List.filter_append, List.map_append]
  rfl

theorem uncommented_cons_of_comment {g : Glyph} (h : g.isComment = true) (gs : List Glyph) :
    uncommented (g :: gs) = uncommented gs := by
  rw [uncommented, List.filter_cons_of_neg (by simp [h])]
  rfl

theorem uncommented_cons_of_not {g : Glyph} (h : g.isComment = false) (gs : List Glyph) :
    uncommented (g :: gs) = g.char :: uncommented gs := by
  rw [uncommented, List.filter_cons_of_pos (by simp [h])]
  rfl

namespace Lexer

/-- The state outside the comment that the lexer is in. -/
def settled (l : Lexer) : Lexer := if l.mode.inComment then { l with mode := .code } else l

variable {l : Lexer} {c d : Char} {next next' after : Option Char}

theorem settled_of_not (h : l.mode.inComment = false) : l.settled = l := by
  rw [settled, h]
  rfl

theorem settled_of_comment (h : l.mode.inComment = true) :
    l.settled = { l with mode := .code } := if_pos h

theorem settled_of_comment_or_code (h : l.mode.inComment = true ∨ l.mode = .code) :
    l.settled = { l with mode := .code } := by
  rcases h with h | h
  · exact settled_of_comment h
  · rw [settled_of_not (by rw [h]; rfl), ← h]

theorem settled_mode (h : l.mode.inComment = true) : l.settled.mode = .code := by
  rw [settled_of_comment h]

/-- A comment begins in code, with a slash. -/
theorem of_opens (hin : l.mode.inComment = false) (h : (l.step c next).1.isComment = true) :
    l.mode = .code ∧ c = '/' := by
  refine ⟨?_, ?_⟩
  · cases hm : l.mode with
    | code => rfl
    | quoted quote =>
      rw [step_quoted hm, stepQuoted] at h
      split_ifs at h <;> cases h
    | quotedEscape quote =>
      rw [step_quotedEscape hm] at h
      cases h
    | template =>
      rw [step_template hm, stepTemplate] at h
      split_ifs at h <;> cases h
    | templateEscape =>
      rw [step_templateEscape hm] at h
      cases h
    | substitutionOpen =>
      rw [step_substitutionOpen hm] at h
      cases h
    | _ =>
      rw [hm] at hin
      cases hin
  · rcases read_step l c next with ⟨-, hin' | hslash⟩ | ⟨hnot, -⟩
    · rw [hin] at hin'
      cases hin'
    · exact hslash
    · rw [h] at hnot
      cases hnot

/-- A comment changes nothing but the mode. -/
theorem settled_step_of_comment (h : (l.step c next).1.isComment = true) :
    (l.step c next).2.settled = l.settled := by
  have hgoes {m : Mode} (hl : l.mode.inComment = true ∨ l.mode = .code)
      (hm : m.inComment = true ∨ m = .code) : settled { l with mode := m } = l.settled := by
    rw [settled_of_comment_or_code hl, settled_of_comment_or_code hm]
  cases hin : l.mode.inComment with
  | false =>
    obtain ⟨hm, rfl⟩ := of_opens hin h
    rw [step_code hm] at h ⊢
    unfold stepCode at h ⊢
    split_ifs at h ⊢ with hline hblock
    · exact hgoes (Or.inr hm) (Or.inl rfl)
    · exact hgoes (Or.inr hm) (Or.inl rfl)
    all_goals simp_all [Region.isComment]
  | true =>
    cases hm : l.mode with
    | lineComment =>
      rw [step_lineComment hm] at h ⊢
      split at h
      · cases h
      · next hc => rw [if_neg hc]
    | commentOpen =>
      rw [step_commentOpen hm]
      exact hgoes (Or.inl hin) (Or.inl rfl)
    | blockComment =>
      rw [step_blockComment hm]
      split
      · exact hgoes (Or.inl hin) (Or.inl rfl)
      · rfl
    | commentClose =>
      rw [step_commentClose hm]
      exact hgoes (Or.inl hin) (Or.inr rfl)
    | _ =>
      rw [hm] at hin
      cases hin

/-- What is outside comments is read as if none stood before it. -/
theorem step_settled (h : (l.step c next).1.isComment = false) :
    l.settled.step c next = l.step c next := by
  cases hin : l.mode.inComment with
  | false => rw [settled_of_not hin]
  | true =>
    rw [step_code (settled_mode hin), settled_of_comment hin]
    cases hm : l.mode with
    | lineComment =>
      rw [step_lineComment hm] at h ⊢
      split at h
      · next hc =>
        rw [hc]
        simp [stepCode]
      · cases h
    | commentOpen =>
      rw [step_commentOpen hm] at h
      cases h
    | blockComment =>
      rw [step_blockComment hm] at h
      split at h <;> cases h
    | commentClose =>
      rw [step_commentClose hm] at h
      cases h
    | _ =>
      rw [hm] at hin
      cases hin

theorem not_inComment_of_not (h : (l.step c next).1.isComment = false) :
    (l.step c next).2.mode.inComment = false := by
  rcases read_step l c next with ⟨hcomment, -⟩ | ⟨-, hout⟩
  · rw [h] at hcomment
    cases hcomment
  · exact hout

/-- In front of a comment it does not matter what follows. -/
theorem step_eq_of_opens (h : (l.step c (some d)).1.isComment = false)
    (hd : ((l.step c (some d)).2.step d after).1.isComment = true) :
    l.step c next = l.step c (some d) := by
  obtain ⟨hmode, rfl⟩ := of_opens (not_inComment_of_not h) hd
  cases hm : l.mode with
  | code =>
    rw [step_code hm] at h
    rw [step_code hm, step_code hm]
    have hslash : c ≠ '/' := by
      rintro rfl
      simp [stepCode, Region.isComment] at h
    simp [stepCode, hslash]
  | template =>
    rw [step_template hm] at hmode
    rw [step_template hm, step_template hm]
    have hdollar : c ≠ '$' := by
      rintro rfl
      simp [stepTemplate, hm] at hmode
    simp [stepTemplate, hdollar]
  | blockComment =>
    rw [step_blockComment hm] at h
    split at h <;> cases h
  | _ => rw [step, step, hm]

/-- The characters outside the comments of a text alone lead to the state behind it. -/
theorem settled_run (l : Lexer) (s : List Char) (next : Option Char) :
    (l.run s next).settled = l.settled.run (uncommented (l.glyphsTo s next)) next := by
  induction s generalizing l with
  | nil => rfl
  | cons c s ih =>
    rw [run, glyphsTo, ih]
    cases hc : (l.step c (s.head?.or next)).1.isComment with
    | true =>
      rw [uncommented_cons_of_comment (by exact hc), settled_step_of_comment hc]
    | false =>
      obtain ⟨l', hl'⟩ : ∃ l', l' = (l.step c (s.head?.or next)).2 := ⟨_, rfl⟩
      have hsame (u : Option Char) (hu : u = s.head?.or next ∨ ∃ d after,
          s.head? = some d ∧ (l'.step d after).1.isComment = true) :
          l.step c u = l.step c (s.head?.or next) := by
        rcases hu with rfl | ⟨d, after, hd, hcomment⟩
        · rfl
        · rw [hd, Option.some_or] at hc hl' ⊢
          exact step_eq_of_opens hc (hl' ▸ hcomment)
      have hnext : l.step c ((uncommented (l'.glyphsTo s next)).head?.or next) =
          l.step c (s.head?.or next) := by
        refine hsame _ ?_
        cases s with
        | nil => exact Or.inl rfl
        | cons d s =>
          cases hd : (l'.step d (s.head?.or next)).1.isComment with
          | true => exact Or.inr ⟨d, _, rfl, hd⟩
          | false =>
            left
            rw [glyphsTo, uncommented_cons_of_not (by exact hd)]
            rfl
      rw [uncommented_cons_of_not (by exact hc), ← hl', run, step_settled (by rw [hnext, hc]),
        hnext, ← hl', settled_of_not (hl' ▸ not_inComment_of_not hc)]

end Lexer

end SnippetRunner.Source
