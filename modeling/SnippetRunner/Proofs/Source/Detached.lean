import SnippetRunner.Proofs.Source.Progress

/-
  Detached semicolons. A semicolon that opens its line after a closing parenthesis ends a
  statement or not, according to where the parenthesis was opened, and that is what changes when
  an earlier line is wrapped in a call. `Parallel` compares the walk over a text with the walk
  over one in which earlier lines have been wrapped; it shows that nowhere else a statement begins
  in the second that does not begin in the first.
-/
namespace SnippetRunner.Source

open SnippetRunner.Text

/-- The significant characters of a line. -/
def significantChars (gs : List Glyph) : List Char := (gs.filter Glyph.isSignificant).map Glyph.char

/-- What the significant characters of the lines so far tell: the last of them, and whether it is
a semicolon that alone makes up its line and follows a closing parenthesis. -/
structure Opening where
  last : Option Char
  detached : Bool
  deriving DecidableEq, Repr

namespace Opening

def initial : Opening := ⟨none, false⟩

/-- After a line with the given significant characters. -/
def after (o : Opening) : List Char → Opening
  | [] => o
  | c :: rest => ⟨(c :: rest).getLast?, c = ';' && rest.isEmpty && o.last = some ')'⟩

/-- A line with the given significant characters opens with a detached semicolon, or is the
first one after such a semicolon that has significant characters. -/
def isAt (o : Opening) (line : List Char) : Bool :=
  o.detached || (o.last = some ')' && line.head? = some ';')

/-- Line `k` of the given ones is at a detached semicolon, where `o` stands before them. -/
def isAtLine (o : Opening) : List (List Glyph) → Nat → Bool
  | [], _ => false
  | gs :: _, 0 => o.isAt (significantChars gs)
  | gs :: gss, k + 1 => isAtLine (o.after (significantChars gs)) gss k

end Opening

/-- The glyphs of a text, line by line. -/
def glyphLines (source : List Char) : List (List Glyph) :=
  splitAfter (·.char = '\n') (glyphs source)

/-- Line `k` of a script stands at a detached semicolon: at one that opens a line after a closing
parenthesis. -/
def atDetachedSemicolon (source : List Char) (k : Nat) : Bool :=
  Opening.initial.isAtLine (glyphLines source) k

/-! ## Significant characters -/

theorem significantChars_append (a b : List Glyph) :
    significantChars (a ++ b) = significantChars a ++ significantChars b := by
  rw [significantChars, List.filter_append, List.map_append]
  rfl

theorem significantChars_cons (g : Glyph) (gs : List Glyph) :
    significantChars (g :: gs) =
      if g.isSignificant then g.char :: significantChars gs else significantChars gs := by
  rw [significantChars, List.filter_cons]
  split <;> rfl

theorem significantChars_eq_nil {gs : List Glyph} :
    significantChars gs = [] ↔ ∀ g ∈ gs, g.isSignificant = false := by
  rw [significantChars, List.map_eq_nil_iff, List.filter_eq_nil_iff]
  exact forall₂_congr fun g _ => by rw [Bool.not_eq_true]

namespace Opening

theorem after_concat_last (o : Opening) (seen : List Char) (c : Char) :
    (o.after (seen ++ [c])).last = some c := by
  cases seen with
  | nil => rfl
  | cons d seen =>
    rw [List.cons_append, after, ← List.cons_append]
    dsimp only
    exact List.getLast?_concat

theorem after_concat_detached (o : Opening) (seen : List Char) (c : Char) :
    (o.after (seen ++ [c])).detached = true ↔ seen = [] ∧ c = ';' ∧ o.last = some ')' := by
  cases seen with
  | nil => simp [after]
  | cons d seen => simp [after]

end Opening

/-! ## Two walks -/

/-- The walk over a text and the walk over one with wrapped lines, at the same place of a line
that both have: `o` tells what stands before the line, `seen` holds the significant characters of
the line so far, and `rest` follows in the first text. -/
structure Parallel (o : Opening) (seen : List Char) (p p' : Progress) (rest : List Glyph) :
    Prop where
  line : p'.nesting.line = p.nesting.line
  opened : ∃ extras, p'.nesting.opened = p.nesting.opened ++ extras
  called : (p.nesting.callClosed.isSome = true ∨ p'.nesting.callClosed.isSome = true) →
    (o.after seen).last = some ')'
  agrees : seen ≠ [] → p'.nesting.opened = [] → p.nesting.callClosed.isSome = true →
    p'.nesting.callClosed = p.nesting.callClosed
  ended : p'.ended = true → p.isFresh rest = true ∨ (o.after seen).detached = true
  broken : p'.broken = true → p.broken = true

theorem callClosedBy_isSome {n : Nesting} {g : Glyph} (h : (n.callClosedBy g).isSome = true) :
    ∃ l, n.opened = [l] ∧ n.callClosedBy g = some l ∧ g.isCode = true ∧ g.char = ')' := by
  unfold Nesting.callClosedBy at h ⊢
  split at h
  · next l e =>
    split at h
    · next hc =>
      rw [Bool.and_eq_true, decide_eq_true_eq] at hc
      exact ⟨l, e, by simp [hc.1, hc.2], hc.1, hc.2⟩
    · cases h
  · cases h

theorem openedAfter_append {n n' : Nesting} (g : Glyph) (hline : n'.line = n.line)
    (h : ∃ extras, n'.opened = n.opened ++ extras) :
    ∃ extras, n'.openedAfter g = n.openedAfter g ++ extras := by
  obtain ⟨extras, h⟩ := h
  unfold Nesting.openedAfter
  split
  · exact ⟨extras, by rw [h, hline]; rfl⟩
  split
  · cases ho : n.opened with
    | nil => exact ⟨extras.tail, by rw [h, ho]; rfl⟩
    | cons l ls => exact ⟨extras, by rw [h, ho]; rfl⟩
  · exact ⟨extras, h⟩

theorem Progress.endsWithin_congr {p q : Progress} (h : p.nesting = q.nesting) (gs : List Glyph) :
    p.endsWithin gs = q.endsWithin gs := by
  induction gs generalizing p q with
  | nil => rfl
  | cons g gs ih =>
    have hstep : (p.step g).nesting = (q.step g).nesting := by
      simp only [step, h]
    rw [endsWithin, endsWithin, ih hstep, endsAt, endsAt, isOuter, isOuter, h]

namespace Parallel

variable {o : Opening} {seen : List Char} {p p' : Progress} {g : Glyph} {rest : List Glyph}

theorem opened_eq_nil (h : Parallel o seen p p' rest) (ho : p'.nesting.opened = []) :
    p.nesting.opened = [] := by
  obtain ⟨extras, he⟩ := h.opened
  rw [ho] at he
  exact (List.append_eq_nil_iff.mp he.symm).1

theorem initial (rest : List Glyph) : Parallel .initial [] .initial .initial rest where
  line := rfl
  opened := ⟨[], rfl⟩
  called := by rintro (h | h) <;> cases h
  agrees := fun hne => absurd rfl hne
  ended := fun _ => Or.inl rfl
  broken := id

/-- A semicolon that ends a statement in the second walk ends one in the first, or is detached. -/
theorem endsAt_of_endsAt (h : Parallel o seen p p' (g :: rest)) (he : p'.endsAt g = true) :
    p.endsAt g = true ∨ (seen = [] ∧ g.char = ';' ∧ o.last = some ')') := by
  unfold Progress.endsAt Progress.isOuter at he ⊢
  simp only [Bool.and_eq_true, decide_eq_true_eq, Bool.not_eq_true', List.isEmpty_iff] at he ⊢
  obtain ⟨⟨hcode, hopened⟩, hchar, hcall⟩ := he
  have hopen := h.opened_eq_nil hopened
  cases hc : p.nesting.callClosed with
  | none =>
    refine Or.inl ⟨⟨hcode, hopen⟩, hchar, ?_⟩
    rw [Nesting.afterMultilineCall, hc]
    rfl
  | some l =>
    have hsome : p.nesting.callClosed.isSome = true := by rw [hc]; rfl
    by_cases hseen : seen = []
    · rw [hseen] at h
      exact Or.inr ⟨hseen, hchar, h.called (Or.inl hsome)⟩
    · refine Or.inl ⟨⟨hcode, hopen⟩, hchar, ?_⟩
      rw [Nesting.afterMultilineCall, h.agrees hseen hopened hsome, h.line] at hcall
      exact hcall

theorem step_significant (h : Parallel o seen p p' (g :: rest)) (hg : g.isSignificant = true) :
    Parallel o (seen ++ [g.char]) (p.step g) (p'.step g) rest where
  line := by
    simp only [Progress.step, Nesting.step, h.line]
  opened := openedAfter_append g h.line h.opened
  called := by
    rw [o.after_concat_last]
    simp only [Progress.step, Nesting.step, hg, if_true]
    rintro (hc | hc)
    · obtain ⟨_, -, -, -, hchar⟩ := callClosedBy_isSome hc
      rw [hchar]
    · obtain ⟨_, -, -, -, hchar⟩ := callClosedBy_isSome hc
      rw [hchar]
  agrees := by
    simp only [Progress.step, Nesting.step, hg, if_true]
    intro _ hopened hc
    obtain ⟨l, ho, hcall, hcode, hchar⟩ := callClosedBy_isSome hc
    obtain ⟨extras, he⟩ := h.opened
    -- the parenthesis leaves no bracket open in the second walk either
    have hextras : extras = [] := by
      rw [ho] at he
      have hnot : isOpening ')' = false := by decide
      have hclose : isClosing ')' = true := by decide
      rw [Nesting.openedAfter, he, hcode, hchar, hnot, hclose] at hopened
      simpa using hopened
    rw [hextras, List.append_nil] at he
    unfold Nesting.callClosedBy
    rw [he]
  ended := by
    intro he
    simp only [Progress.step, hg, if_true] at he
    rcases h.endsAt_of_endsAt he with hp | hd
    · left
      simp [Progress.isFresh, Progress.step, hg, hp]
    · exact Or.inr ((o.after_concat_detached seen g.char).mpr hd)
  broken := by
    intro hb
    simp [Progress.step, hg] at hb

theorem step_not (h : Parallel o seen p p' (g :: rest)) (hg : g.isSignificant = false) :
    Parallel o seen (p.step g) (p'.step g) rest where
  line := by
    simp only [Progress.step, Nesting.step, h.line]
  opened := openedAfter_append g h.line h.opened
  called := by
    rw [Progress.step_callClosed_of_not hg, Progress.step_callClosed_of_not hg]
    exact h.called
  agrees := by
    rw [Progress.step_callClosed_of_not hg, Progress.step_callClosed_of_not hg,
      Progress.step_opened_of_not hg]
    exact h.agrees
  ended := by
    rw [Progress.step_ended_of_not hg]
    intro he
    exact (h.ended he).imp_left (Progress.isFresh_step_of_not hg)
  broken := by
    intro hb
    simp only [Progress.step, hg, Bool.not_false, Bool.true_and, Bool.or_eq_true] at hb ⊢
    refine hb.imp h.broken fun hbreaks => ?_
    unfold Progress.breaksAt Progress.isOuter at hbreaks ⊢
    simp only [Bool.and_eq_true, decide_eq_true_eq, List.isEmpty_iff] at hbreaks ⊢
    exact ⟨⟨hbreaks.1.1, h.opened_eq_nil hbreaks.1.2⟩, hbreaks.2⟩

theorem run {gs : List Glyph} (h : Parallel o seen p p' (gs ++ rest)) :
    Parallel o (seen ++ significantChars gs) (p.run gs) (p'.run gs) rest := by
  induction gs generalizing seen p p' with
  | nil =>
    rw [significantChars, List.filter_nil, List.map_nil, List.append_nil]
    exact h
  | cons g gs ih =>
    rw [significantChars_cons]
    split
    · next hg =>
      have := ih (h.step_significant hg)
      rwa [List.append_assoc] at this
    · next hg => exact ih (h.step_not (by simpa using hg))

/-- Outside all brackets only a semicolon that opens its line after a closing parenthesis makes a
difference. -/
theorem endsWithin_eq {line : List Char} (h : Parallel o [] p p' rest) {gs : List Glyph}
    (hopened : p'.nesting.opened = []) (hat : o.isAt line = false)
    (hhead : ∀ g ∈ gs.head?, g.isSignificant = true ∧ line.head? = some g.char) :
    p'.endsWithin gs = p.endsWithin gs := by
  have hopen := h.opened_eq_nil hopened
  cases gs with
  | nil => rfl
  | cons g gs =>
    obtain ⟨hg, hline⟩ := hhead g rfl
    have hstep : (p'.step g).nesting = (p.step g).nesting := by
      simp only [Progress.step, Nesting.step, Nesting.openedAfter, Nesting.callClosedBy, hg, hopen,
        hopened, h.line, if_true]
    have hends : p'.endsAt g = p.endsAt g := by
      by_cases hchar : g.char = ';'
      · -- no parenthesis stands before it
        have hlast : o.last ≠ some ')' := by
          intro hlast
          rw [Opening.isAt, hlast, hline, hchar] at hat
          simp at hat
        have hnone : p.nesting.callClosed = none := by
          by_contra hne
          exact hlast (h.called (Or.inl (Option.isSome_iff_ne_none.mpr hne)))
        have hnone' : p'.nesting.callClosed = none := by
          by_contra hne
          exact hlast (h.called (Or.inr (Option.isSome_iff_ne_none.mpr hne)))
        simp only [Progress.endsAt, Progress.isOuter, Nesting.afterMultilineCall, hopen, hopened,
          hnone, hnone', Option.any_none]
      · simp [Progress.endsAt, hchar]
    rw [Progress.endsWithin, Progress.endsWithin, hends, Progress.endsWithin_congr hstep]

/-- At the start of the next line. -/
theorem nextLine {gs : List Glyph} (h : Parallel o [] p p' (gs ++ rest)) :
    Parallel (o.after (significantChars gs)) [] (p.run gs) (p'.run gs) rest := by
  have h := h.run
  rw [List.nil_append] at h
  exact ⟨h.line, h.opened, h.called, fun hne => absurd rfl hne, h.ended, h.broken⟩

end Parallel

end SnippetRunner.Source
