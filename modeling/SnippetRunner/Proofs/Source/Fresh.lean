import SnippetRunner.Proofs.Source.Detached
import SnippetRunner.Proofs.Source.Lexing

/-
  Places at which a statement begins. Between the end of a statement and the next significant
  character the lexer is in code or in a comment, and behind that character no other statement
  begins before the next boundary. A place that only the second of two parallel walks takes for
  the start of a statement is on a line at a detached semicolon.
-/
namespace SnippetRunner.Source

open SnippetRunner.Text

/-! ## Spots -/

/-- A place in a text: what stands before its line, and the significant characters of the line
before the place. -/
structure Spot where
  opening : Opening
  seen : List Char
  deriving DecidableEq, Repr

namespace Spot

def initial : Spot := ⟨.initial, []⟩

def step (s : Spot) (g : Glyph) : Spot :=
  if g.char = '\n' then ⟨s.opening.after s.seen, []⟩
  else if g.isSignificant then ⟨s.opening, s.seen ++ [g.char]⟩
  else s

def run (s : Spot) (gs : List Glyph) : Spot := gs.foldl step s

/-- A detached semicolon is the last significant character before the place. -/
def isDetached (s : Spot) : Bool := (s.opening.after s.seen).detached

theorem run_cons (s : Spot) (g : Glyph) (gs : List Glyph) : s.run (g :: gs) = (s.step g).run gs :=
  rfl

theorem run_append (s : Spot) (a b : List Glyph) : s.run (a ++ b) = (s.run a).run b :=
  List.foldl_append ..

theorem run_feedless (s : Spot) {gs : List Glyph} (h : ∀ g ∈ gs, g.char ≠ '\n') :
    s.run gs = ⟨s.opening, s.seen ++ significantChars gs⟩ := by
  induction gs generalizing s with
  | nil =>
    rw [significantChars_eq_nil.mpr (by simp), List.append_nil]
    rfl
  | cons g gs ih =>
    rw [run_cons, ih _ fun a ha => h a (List.mem_cons_of_mem _ ha), step,
      if_neg (h g (List.mem_cons_self ..)), significantChars_cons]
    split
    · rw [List.append_assoc]
      rfl
    · rfl

/-- Over a whole line. -/
theorem run_line (o : Opening) {init : List Glyph} {feed : Glyph} (h : ∀ g ∈ init, g.char ≠ '\n')
    (hfeed : feed.char = '\n') :
    (⟨o, []⟩ : Spot).run (init ++ [feed]) = ⟨o.after (significantChars (init ++ [feed])), []⟩ := by
  have hnot : feed.isSignificant = false :=
    Glyph.not_significant_of_isAsciiBlank (by rw [hfeed]; decide)
  rw [run_append, run_feedless _ h, significantChars_append, significantChars_cons, hnot]
  rw [run_cons, step, if_pos hfeed, List.nil_append]
  simp [run, significantChars]

theorem isAt_of_isDetached {o : Opening} {seen : List Char} (h : (o.after seen).detached = true)
    (c : Char) (more : List Char) : o.isAt (seen ++ c :: more) = true := by
  rw [Opening.isAt]
  cases seen with
  | nil => rw [show o.detached = true from h, Bool.true_or]
  | cons d seen =>
    simp only [Opening.after, Bool.and_eq_true, decide_eq_true_eq, List.isEmpty_iff] at h
    obtain ⟨⟨rfl, rfl⟩, hlast⟩ := h
    simp [hlast]

variable {o : Opening} {before rest : List Glyph} {g : Glyph}

theorem newlines_eq_zero_of_feedless {gs : List Glyph} (h : ∀ g ∈ gs, g.char ≠ '\n') :
    newlines (gs.map Glyph.char) = 0 := by
  refine List.count_eq_zero_of_not_mem fun hmem => ?_
  obtain ⟨g, hg, e⟩ := List.mem_map.mp hmem
  exact h g hg e

/-- A line with a place behind a detached semicolon is at one. -/
theorem isAt_of_isDetached_run (hfeedless : ∀ a ∈ before, a.char ≠ '\n')
    (hg : g.isSignificant = true) (h : ((⟨o, []⟩ : Spot).run before).isDetached = true) :
    o.isAt (significantChars (before ++ g :: rest)) = true := by
  rw [run_feedless _ hfeedless] at h
  rw [significantChars_append, significantChars_cons, if_pos hg]
  exact isAt_of_isDetached h _ _

theorem isAtLine_of_cut {pieces : List (List Glyph)} (hcut : Cut (·.char = '\n') pieces)
    (hg : g.isSignificant = true) (he : pieces.flatten = before ++ g :: rest)
    (h : ((⟨o, []⟩ : Spot).run before).isDetached = true) :
    o.isAtLine pieces (newlines (before.map Glyph.char)) = true := by
  induction hcut generalizing o before with
  | nil => simp at he
  | @unclosed piece hne hu =>
    obtain rfl : piece = before ++ g :: rest := by simpa using he
    have hfeedless : ∀ a ∈ before, a.char ≠ '\n' :=
      fun a ha => by simpa using hu a (List.mem_append_left _ ha)
    rw [newlines_eq_zero_of_feedless hfeedless]
    exact isAt_of_isDetached_run hfeedless hg h
  | @closed init feed pieces hu hm _ ih =>
    have hinit : ∀ a ∈ init, a.char ≠ '\n' := fun a ha => by simpa using hu a ha
    have hm : feed.char = '\n' := by simpa using hm
    rw [List.flatten_cons] at he
    rcases append_eq_append_cons he with ⟨more, rfl, hmore⟩ | ⟨more, hline, -⟩
    · -- the place is behind the line
      rw [run_append, run_line _ hinit hm] at h
      have hcount : newlines (((init ++ [feed]) ++ more).map Glyph.char) =
          newlines (more.map Glyph.char) + 1 := by
        have hzero : (init.map Glyph.char).count '\n' = 0 := newlines_eq_zero_of_feedless hinit
        simp only [newlines, List.map_append, List.map_singleton, List.count_append, hm, hzero,
          List.count_singleton_self]
        omega
      rw [hcount, Opening.isAtLine]
      exact ih hmore h
    · -- the place is on the line
      have hfeedless : ∀ a ∈ before, a.char ≠ '\n' := by
        intro a ha
        have hdrop : init = before ++ (g :: more).dropLast := by
          have hdrop := congrArg List.dropLast hline
          rwa [List.dropLast_concat, List.dropLast_append_of_ne_nil (List.cons_ne_nil _ _)]
            at hdrop
        exact hinit a (by rw [hdrop]; exact List.mem_append_left _ ha)
      rw [newlines_eq_zero_of_feedless hfeedless, Opening.isAtLine, hline]
      exact isAt_of_isDetached_run hfeedless hg h

/-- A place behind a detached semicolon is on a line at one. -/
theorem isAtLine_of_isDetached (hg : g.isSignificant = true)
    (h : ((⟨o, []⟩ : Spot).run before).isDetached = true) :
    o.isAtLine (splitAfter (·.char = '\n') (before ++ g :: rest))
      (newlines (before.map Glyph.char)) = true :=
  isAtLine_of_cut (cut_splitAfter _ _) hg (flatten_splitAfter _ _) h

end Spot

/-! ## Parallel walks from place to place -/

namespace Parallel

variable {s : Spot} {p p' : Progress} {gs rest : List Glyph}

theorem stepSpot {g : Glyph} (h : Parallel s.opening s.seen p p' (g :: rest)) :
    Parallel (s.step g).opening (s.step g).seen (p.step g) (p'.step g) rest := by
  unfold Spot.step
  split
  · next hfeed =>
    have hstep := h.step_not (Glyph.not_significant_of_isAsciiBlank (by rw [hfeed]; decide))
    exact ⟨hstep.line, hstep.opened, hstep.called, fun hne => absurd rfl hne, hstep.ended,
      hstep.broken⟩
  split
  · next hg => exact h.step_significant hg
  · next hg => exact h.step_not (by simpa using hg)

theorem runSpot (h : Parallel s.opening s.seen p p' (gs ++ rest)) :
    Parallel (s.run gs).opening (s.run gs).seen (p.run gs) (p'.run gs) rest := by
  induction gs generalizing s p p' with
  | nil => exact h
  | cons g gs ih => exact ih h.stepSpot

/-- A significant character that begins a statement for the second walk begins one for the first,
or follows a detached semicolon. -/
theorem isFresh_of_isFresh {g : Glyph} {rest' : List Glyph}
    (h : Parallel s.opening s.seen p p' (g :: rest)) (hg : g.isSignificant = true)
    (hfresh : p'.isFresh (g :: rest') = true) :
    p.isFresh (g :: rest) = true ∨ s.isDetached = true := by
  rw [Progress.isFresh, continuesIn_cons_of_significant hg, Bool.or_eq_true, Bool.and_eq_true]
    at hfresh
  rcases hfresh with hended | ⟨hbroken, hnot⟩
  · exact h.ended hended
  · left
    rw [Progress.isFresh, continuesIn_cons_of_significant hg, h.broken hbroken, hnot]
    simp

end Parallel

/-! ## Behind the start of a statement -/

namespace Progress

theorem isFresh_run_of_boundaryless {p : Progress} {gs rest : List Glyph}
    (hfresh : p.isFresh (gs ++ rest) = false)
    (h : ∀ c ∈ p.cellsTo gs rest, c.boundary = false) : (p.run gs).isFresh rest = false := by
  induction gs generalizing p with
  | nil => exact hfresh
  | cons g gs ih =>
    rw [cellsTo] at h
    refine ih ?_ fun c hc => h c (List.mem_cons_of_mem _ hc)
    have hboundary : p.nesting.isBoundary g (gs ++ rest) = false := h _ (List.mem_cons_self ..)
    rw [List.cons_append] at hfresh
    rw [← freshAfter_isFresh, hfresh, hboundary]
    rfl

/-- Behind its first character no statement begins before the next boundary. -/
theorem not_isFresh_behind {p : Progress} {g : Glyph} {gs rest : List Glyph}
    (hg : g.isSignificant = true) (h : ∀ c ∈ p.cellsTo (g :: gs) rest, c.boundary = false) :
    (p.run (g :: gs)).isFresh rest = false := by
  rw [cellsTo] at h
  have hboundary : p.nesting.isBoundary g (gs ++ rest) = false := h _ (List.mem_cons_self ..)
  refine isFresh_run_of_boundaryless (p := p.step g) ?_ fun c hc => h c (List.mem_cons_of_mem _ hc)
  rw [← freshAfter_isFresh, hboundary, freshAfter, hg]
  simp

/-- Behind a boundary a statement begins. -/
theorem isFresh_of_boundary {p : Progress} {g : Glyph} {rest : List Glyph}
    (h : p.nesting.isBoundary g rest = true) : (p.step g).isFresh rest = true := by
  rw [← freshAfter_isFresh, h]
  rfl

theorem endsWithin_append (p : Progress) (a b : List Glyph) :
    p.endsWithin (a ++ b) = (p.endsWithin a || (p.run a).endsWithin b) := by
  induction a generalizing p with
  | nil => rfl
  | cons g a ih => rw [List.cons_append, endsWithin, endsWithin, ih, Bool.or_assoc, run_cons]

/-- Behind its first character no statement begins on its line, where no semicolon ends one. -/
theorem not_begun_of_endsWithin {p : Progress} {g : Glyph} {gs : List Glyph}
    (hg : g.isSignificant = true) (hfeedless : ∀ a ∈ gs, a.char ≠ '\n')
    (h : p.endsWithin (g :: gs) = false) :
    (p.run (g :: gs)).ended = false ∧ (p.run (g :: gs)).broken = false := by
  have hrest {p : Progress} (hended : p.ended = false) (hbroken : p.broken = false) :
      p.endsWithin gs = false → (p.run gs).ended = false ∧ (p.run gs).broken = false := by
    clear h
    induction gs generalizing p with
    | nil => exact fun _ => ⟨hended, hbroken⟩
    | cons a gs ih =>
      intro h
      rw [endsWithin, Bool.or_eq_false_iff] at h
      have ha := hfeedless a (List.mem_cons_self ..)
      refine ih (fun b hb => hfeedless b (List.mem_cons_of_mem _ hb)) ?_ ?_ h.2
      · simp [step, h.1, hended]
      · simp [step, breaksAt, hbroken, ha]
  rw [endsWithin, Bool.or_eq_false_iff] at h
  exact hrest (by simp [step, hg, h.1]) (by simp [step, hg]) h.2

/-- A boundary is a semicolon or a line end in code. -/
theorem of_boundary {p : Progress} {gs rest : List Glyph} {c : Cell} (hc : c ∈ p.cellsTo gs rest)
    (h : c.boundary = true) : c.isCode = true ∧ (c.char = ';' ∨ c.char = '\n') := by
  induction gs generalizing p with
  | nil => cases hc
  | cons g gs ih =>
    rcases List.mem_cons.mp hc with rfl | hc
    · have hboundary : p.nesting.isBoundary g (gs ++ rest) = true := h
      simp only [Nesting.isBoundary, Bool.and_eq_true, Bool.or_eq_true, decide_eq_true_eq]
        at hboundary
      exact ⟨hboundary.1.1, hboundary.2.imp And.left And.left⟩
    · exact ih hc

/-- Behind a semicolon that ended a statement no call has been closed. -/
theorem callClosed_of_ended {p : Progress} {gs : List Glyph}
    (hp : p.ended = true → p.nesting.callClosed = none) (h : (p.run gs).ended = true) :
    (p.run gs).nesting.callClosed = none := by
  induction gs generalizing p with
  | nil => exact hp h
  | cons g gs ih =>
    refine ih (fun hended => ?_) h
    cases hg : g.isSignificant with
    | false =>
      rw [step_ended_of_not hg] at hended
      rw [step_callClosed_of_not hg, hp hended]
    | true =>
      simp only [step, hg, if_true, endsAt, Bool.and_eq_true, decide_eq_true_eq] at hended
      simp only [step, Nesting.step, hg, if_true]
      unfold Nesting.callClosedBy
      split
      · rw [if_neg (by simp [hended.2.1])]
      · rfl

/-- On a line with a significant character before the place no line end has broken a statement
since. -/
theorem seen_of_broken {p : Progress} {s : Spot} {gs : List Glyph}
    (hp : p.broken = true → s.seen = []) (h : (p.run gs).broken = true) :
    (s.run gs).seen = [] := by
  induction gs generalizing p s with
  | nil => exact hp h
  | cons g gs ih =>
    refine ih (fun hbroken => ?_) h
    unfold Spot.step
    split
    · rfl
    · next hfeed =>
      cases hg : g.isSignificant with
      | true => simp [step, hg] at hbroken
      | false =>
        rw [step_broken_of_not hg hfeed] at hbroken
        exact hp hbroken

end Progress

/-! ## The lexer between statements -/

/-- Modes that the lexer is in between the end of a statement and the next significant
character. -/
def Mode.isBetween : Mode → Bool
  | .code | .lineComment | .commentOpen | .blockComment | .commentClose => true
  | _ => false

namespace Lexer

theorem isBetween_step {l : Lexer} {c : Char} {next : Option Char}
    (hm : l.mode.isBetween = true)
    (h : Glyph.isSignificant ⟨c, (l.step c next).1⟩ = false) :
    (l.step c next).2.mode.isBetween = true := by
  have hsignificant {region : Region} (hregion : region.isComment = false)
      (hc : isAsciiBlank c = false) : Glyph.isSignificant ⟨c, region⟩ = true := by
    rw [Glyph.isSignificant, Glyph.isComment, hregion, hc]
    rfl
  cases hl : l.mode with
  | code =>
    rw [step_code hl] at h ⊢
    unfold stepCode at h ⊢
    split_ifs at h ⊢ with h1 h2 h3 h4 h5 h6
    · rfl
    · rfl
    · rcases (by simpa using h3 : c = '\'' ∨ c = '"') with rfl | rfl <;>
        · rw [hsignificant rfl (by decide)] at h
          cases h
    · rw [hsignificant rfl (by rw [h4]; decide)] at h
      cases h
    · simp [hl, Mode.isBetween]
    · rw [hsignificant l.closeBrace_not_comment (by rw [h6]; decide)] at h
      cases h
    · simp [hl, Mode.isBetween]
  | lineComment =>
    rw [step_lineComment hl]
    split
    · rfl
    · simp [hl, Mode.isBetween]
  | commentOpen => simp [step_commentOpen hl, Mode.isBetween]
  | blockComment =>
    rw [step_blockComment hl]
    split
    · rfl
    · simp [hl, Mode.isBetween]
  | commentClose => simp [step_commentClose hl, Mode.isBetween]
  | _ => rw [hl] at hm; cases hm

/-- A significant character between statements is met in code. -/
theorem code_of_isBetween {l : Lexer} {c : Char} {next : Option Char}
    (hm : l.mode.isBetween = true)
    (h : Glyph.isSignificant ⟨c, (l.step c next).1⟩ = true) : l.mode = .code := by
  cases hl : l.mode with
  | code => rfl
  | lineComment =>
    rw [step_lineComment hl] at h
    split at h
    · next hc =>
      have hblank : isAsciiBlank c = true := by rw [hc]; decide
      rw [Glyph.not_significant_of_isAsciiBlank hblank] at h
      cases h
    · cases h
  | commentOpen =>
    rw [step_commentOpen hl] at h
    cases h
  | blockComment =>
    rw [step_blockComment hl] at h
    split at h <;> cases h
  | commentClose =>
    rw [step_commentClose hl] at h
    cases h
  | _ => rw [hl] at hm; cases hm

theorem isBetween_run {l : Lexer} {p : Progress} {s : List Char} {next : Option Char}
    (hp : p.ended = true ∨ p.broken = true → l.mode.isBetween = true)
    (h : (p.run (l.glyphsTo s next)).ended = true ∨ (p.run (l.glyphsTo s next)).broken = true) :
    (l.run s next).mode.isBetween = true := by
  induction s generalizing l p with
  | nil => exact hp h
  | cons c s ih =>
    refine ih (fun hstep => ?_) h
    have hcode (hcode : Glyph.isCode ⟨c, (l.step c (s.head?.or next)).1⟩ = true) :
        (l.step c (s.head?.or next)).2.mode.isBetween = true := by
      rw [mode_of_region_code (by simpa [Glyph.isCode] using hcode)]
      rfl
    cases hg : Glyph.isSignificant ⟨c, (l.step c (s.head?.or next)).1⟩ with
    | true =>
      simp only [Progress.step, hg, if_true, Bool.not_true, Bool.false_and, Bool.false_eq_true,
        or_false, Progress.endsAt, Bool.and_eq_true] at hstep
      exact hcode hstep.1.1
    | false =>
      simp only [Progress.step, hg, Bool.false_eq_true, if_false, Bool.not_false, Bool.true_and,
        Bool.or_eq_true, Progress.breaksAt, Bool.and_eq_true] at hstep
      rcases hstep with hended | hbroken | hbreaks
      · exact isBetween_step (hp (Or.inl hended)) hg
      · exact isBetween_step (hp (Or.inr hbroken)) hg
      · exact hcode hbreaks.1.1

end Lexer

end SnippetRunner.Source
