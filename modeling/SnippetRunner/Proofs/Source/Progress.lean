import SnippetRunner.Proofs.Source.Walk

/-
  The walk without a look ahead. Whether a place begins a statement depends on what follows it,
  but only in one way: a line end in code, outside all brackets, ends a statement unless the next
  significant character goes on with it. `Progress` keeps the rest, so the cells of a text are
  those of its parts, and two walks can be compared step by step.
-/
namespace SnippetRunner.Source

open SnippetRunner.Text

/-! ## Glyphs -/

theorem Glyph.char_ne_newline_of_isSignificant {g : Glyph} (h : g.isSignificant = true) :
    g.char ≠ '\n' := by
  intro e
  rw [Glyph.isSignificant, e] at h
  revert h
  cases g.isComment <;> decide

theorem Glyph.not_isComment_of_isCode {g : Glyph} (h : g.isCode = true) : g.isComment = false := by
  have hregion : g.region = .code := by simpa [Glyph.isCode] using h
  rw [Glyph.isComment, hregion]
  rfl

theorem Glyph.isSignificant_of_isCode {g : Glyph} (hcode : g.isCode = true)
    (h : isAsciiBlank g.char = false) : g.isSignificant = true := by
  rw [Glyph.isSignificant, Glyph.not_isComment_of_isCode hcode, h]
  rfl

theorem Glyph.not_significant_of_isAsciiBlank {g : Glyph} (h : isAsciiBlank g.char = true) :
    g.isSignificant = false := by
  rw [Glyph.isSignificant, h, Bool.not_true, Bool.and_false]

theorem Glyph.isSignificant_iff {g : Glyph} :
    g.isSignificant = true ↔ g.isComment = false ∧ isAsciiBlank g.char = false := by
  rw [Glyph.isSignificant, Bool.and_eq_true, Bool.not_eq_true', Bool.not_eq_true']

theorem Glyph.comment_or_blank {g : Glyph} (h : g.isSignificant = false) :
    g.isComment = true ∨ isAsciiBlank g.char = true := by
  rwa [Glyph.isSignificant, Bool.and_eq_false_iff, Bool.not_eq_false', Bool.not_eq_false'] at h

theorem continuesIn_cons_of_significant {g : Glyph} (h : g.isSignificant = true)
    (rest : List Glyph) : continuesIn (g :: rest) = isContinuation g.char := by
  rw [continuesIn, nextSignificant, List.find?_cons, h]
  rfl

theorem nextSignificant_cons_of_not {g : Glyph} (h : g.isSignificant = false)
    (rest : List Glyph) : nextSignificant (g :: rest) = nextSignificant rest := by
  rw [nextSignificant, List.find?_cons, h]
  rfl

theorem continuesIn_cons_of_not {g : Glyph} (h : g.isSignificant = false) (rest : List Glyph) :
    continuesIn (g :: rest) = continuesIn rest := by
  rw [continuesIn, nextSignificant_cons_of_not h]
  rfl

theorem nextSignificant_append_of_not {gs : List Glyph}
    (h : ∀ g ∈ gs, g.isSignificant = false) (rest : List Glyph) :
    nextSignificant (gs ++ rest) = nextSignificant rest := by
  induction gs with
  | nil => rfl
  | cons g gs ih =>
    rw [List.cons_append, nextSignificant_cons_of_not (h g (List.mem_cons_self ..)),
      ih fun a ha => h a (List.mem_cons_of_mem _ ha)]

theorem continuesIn_append_of_not {gs : List Glyph} (h : ∀ g ∈ gs, g.isSignificant = false)
    (rest : List Glyph) : continuesIn (gs ++ rest) = continuesIn rest := by
  rw [continuesIn, nextSignificant_append_of_not h]
  rfl

/-! ## Progress -/

/-- What the walk knows at a place without a look ahead: its brackets, whether no significant
character stands before the place or the last one ended a statement, and whether since that one
a line ended in code outside all brackets. -/
structure Progress where
  nesting : Nesting
  ended : Bool
  broken : Bool
  deriving DecidableEq, Repr

namespace Progress

def initial : Progress := ⟨.initial, true, false⟩

/-- No bracket is open. -/
def isOuter (p : Progress) : Bool := p.nesting.opened.isEmpty

/-- `g` is a semicolon that ends a statement. -/
def endsAt (p : Progress) (g : Glyph) : Bool :=
  g.isCode && p.isOuter && (g.char = ';' && !p.nesting.afterMultilineCall)

/-- `g` is a line end that ends a statement if that is not continued. -/
def breaksAt (p : Progress) (g : Glyph) : Bool := g.isCode && p.isOuter && g.char = '\n'

def step (p : Progress) (g : Glyph) : Progress where
  nesting := p.nesting.step g
  ended := if g.isSignificant then p.endsAt g else p.ended
  broken := !g.isSignificant && (p.broken || p.breaksAt g)

def run (p : Progress) (gs : List Glyph) : Progress := gs.foldl step p

/-- Whether the place before `rest` is the start of a statement. -/
def isFresh (p : Progress) (rest : List Glyph) : Bool :=
  p.ended || (p.broken && !continuesIn rest)

/-- The cell of `g`, with `following` after it. -/
def cellAt (p : Progress) (g : Glyph) (following : List Glyph) : Cell :=
  ⟨g, p.nesting.depth, (p.nesting.step g).depth, p.nesting.isBoundary g following,
    p.isFresh (g :: following)⟩

/-- The cells of `gs`, with `following` after them. -/
def cellsTo (p : Progress) : List Glyph → List Glyph → List Cell
  | [], _ => []
  | g :: gs, following => p.cellAt g (gs ++ following) :: cellsTo (p.step g) gs following

theorem run_cons (p : Progress) (g : Glyph) (gs : List Glyph) :
    p.run (g :: gs) = (p.step g).run gs := rfl

theorem run_append (p : Progress) (a b : List Glyph) : p.run (a ++ b) = (p.run a).run b :=
  List.foldl_append ..

theorem run_concat (p : Progress) (a : List Glyph) (g : Glyph) :
    p.run (a ++ [g]) = (p.run a).step g := run_append p a [g]

theorem isBoundary_eq (p : Progress) (g : Glyph) (following : List Glyph) :
    p.nesting.isBoundary g following =
      (p.endsAt g || (p.breaksAt g && !continuesIn following)) := by
  unfold Nesting.isBoundary endsAt breaksAt isOuter
  cases g.isCode <;> cases p.nesting.opened.isEmpty <;> simp

theorem endsAt_of_not_significant {p : Progress} {g : Glyph} (h : g.isSignificant = false) :
    p.endsAt g = false := by
  unfold endsAt
  cases hcode : g.isCode with
  | false => rfl
  | true =>
    by_cases hc : g.char = ';'
    · have := Glyph.isSignificant_of_isCode hcode (by rw [hc]; decide)
      rw [this] at h
      cases h
    · simp [hc]

theorem breaksAt_of_significant {p : Progress} {g : Glyph} (h : g.isSignificant = true) :
    p.breaksAt g = false := by
  have := Glyph.char_ne_newline_of_isSignificant h
  simp [breaksAt, this]

/-- The place after a glyph is the start of a statement exactly as the walk has it. -/
theorem freshAfter_isFresh (p : Progress) (g : Glyph) (rest : List Glyph) :
    freshAfter (p.isFresh (g :: rest)) (p.nesting.isBoundary g rest) g =
      (p.step g).isFresh rest := by
  rw [isBoundary_eq, freshAfter]
  cases hs : g.isSignificant with
  | true => simp [isFresh, step, hs, breaksAt_of_significant hs]
  | false =>
    rw [endsAt_of_not_significant hs]
    simp only [isFresh, step, hs, continuesIn_cons_of_not hs]
    cases p.ended <;> cases p.broken <;> cases p.breaksAt g <;> cases continuesIn rest <;> rfl

theorem cellsFrom_eq_cellsTo (p : Progress) (gs : List Glyph) :
    cellsFrom p.nesting (p.isFresh gs) gs = p.cellsTo gs [] := by
  induction gs generalizing p with
  | nil => rfl
  | cons g rest ih =>
    rw [cellsFrom, cellsTo, List.append_nil, freshAfter_isFresh, ← ih]
    rfl

theorem cellsTo_append (p : Progress) (a b following : List Glyph) :
    p.cellsTo (a ++ b) following =
      p.cellsTo a (b ++ following) ++ (p.run a).cellsTo b following := by
  induction a generalizing p with
  | nil => rfl
  | cons g a ih => rw [List.cons_append, cellsTo, cellsTo, ih, List.append_assoc, run_cons,
      List.cons_append]

theorem map_glyph_cellsTo (p : Progress) (gs following : List Glyph) :
    (p.cellsTo gs following).map Cell.glyph = gs := by
  induction gs generalizing p with
  | nil => rfl
  | cons g gs ih => rw [cellsTo, List.map_cons, ih, cellAt]

theorem map_char_cellsTo (p : Progress) (gs following : List Glyph) :
    (p.cellsTo gs following).map Cell.char = gs.map Glyph.char := by
  rw [← map_char_glyph, map_glyph_cellsTo]

theorem length_cellsTo (p : Progress) (gs following : List Glyph) :
    (p.cellsTo gs following).length = gs.length := by
  rw [← List.length_map Cell.glyph, map_glyph_cellsTo]

theorem cellsTo_eq_nil {p : Progress} {gs following : List Glyph} :
    p.cellsTo gs following = [] ↔ gs = [] := by
  rw [← List.length_eq_zero_iff, length_cellsTo, List.length_eq_zero_iff]

theorem head?_cellsTo (p : Progress) (g : Glyph) (gs following : List Glyph) :
    (p.cellsTo (g :: gs) following).head? = some (p.cellAt g (gs ++ following)) := rfl

theorem getLast?_cellsTo (p : Progress) (gs : List Glyph) (g : Glyph) (following : List Glyph) :
    (p.cellsTo (gs ++ [g]) following).getLast? = some ((p.run gs).cellAt g following) := by
  rw [cellsTo_append, List.getLast?_append]
  rfl

/-- Where the cells of glyphs are cut, the glyphs are, and their parts are walked one after the
other. -/
theorem cellsTo_eq_append {p : Progress} {gs following : List Glyph} {a b : List Cell}
    (h : p.cellsTo gs following = a ++ b) :
    gs = a.map Cell.glyph ++ b.map Cell.glyph ∧
      a = p.cellsTo (a.map Cell.glyph) (b.map Cell.glyph ++ following) ∧
      b = (p.run (a.map Cell.glyph)).cellsTo (b.map Cell.glyph) following := by
  have e := congrArg (List.map Cell.glyph) h
  rw [map_glyph_cellsTo, List.map_append] at e
  refine ⟨e, ?_⟩
  rw [e, cellsTo_append] at h
  refine List.append_inj h.symm ?_
  rw [length_cellsTo, List.length_map]

/-! ## Steps over glyphs that carry no meaning -/

theorem isFresh_step_of_not {p : Progress} {g : Glyph} {rest : List Glyph}
    (hg : g.isSignificant = false) (h : p.isFresh (g :: rest) = true) :
    (p.step g).isFresh rest = true := by
  rw [← freshAfter_isFresh, freshAfter, h, hg]
  simp

theorem openedAfter_of_not_significant {n : Nesting} {g : Glyph} (h : g.isSignificant = false) :
    n.openedAfter g = n.opened := by
  unfold Nesting.openedAfter
  cases hcode : g.isCode with
  | false => simp
  | true =>
    have hblank : isAsciiBlank g.char = true := by
      by_contra hb
      rw [Glyph.isSignificant_of_isCode hcode (by simpa using hb)] at h
      cases h
    have hopen : isOpening g.char = false := by
      simp only [isAsciiBlank, Bool.or_eq_true, decide_eq_true_eq] at hblank
      rcases hblank with (((e | e) | e) | e) | e <;> rw [e] <;> decide
    have hclose : isClosing g.char = false := by
      simp only [isAsciiBlank, Bool.or_eq_true, decide_eq_true_eq] at hblank
      rcases hblank with (((e | e) | e) | e) | e <;> rw [e] <;> decide
    simp [hopen, hclose]

/-- The brackets that are open behind a glyph. -/
theorem depth_step (p : Progress) (g : Glyph) : (p.step g).nesting.depth =
    if g.isCode && isOpening g.char then p.nesting.depth + 1
    else if g.isCode && isClosing g.char then p.nesting.depth - 1
    else p.nesting.depth := by
  simp only [step, Nesting.step, Nesting.depth, Nesting.openedAfter]
  split
  · rfl
  · split
    · exact List.length_tail
    · rfl

theorem step_opened_of_not {p : Progress} {g : Glyph} (h : g.isSignificant = false) :
    (p.step g).nesting.opened = p.nesting.opened :=
  openedAfter_of_not_significant h

theorem step_callClosed_of_not {p : Progress} {g : Glyph} (h : g.isSignificant = false) :
    (p.step g).nesting.callClosed = p.nesting.callClosed := by
  simp [step, Nesting.step, h]

theorem step_ended_of_not {p : Progress} {g : Glyph} (h : g.isSignificant = false) :
    (p.step g).ended = p.ended := by
  simp [step, h]

theorem step_broken_of_not {p : Progress} {g : Glyph} (h : g.isSignificant = false)
    (hc : g.char ≠ '\n') : (p.step g).broken = p.broken := by
  simp [step, h, breaksAt, hc]

/-- Within a line such a glyph changes nothing. -/
theorem step_of_not {p : Progress} {g : Glyph} (h : g.isSignificant = false) (hc : g.char ≠ '\n') :
    p.step g = p := by
  have hnesting : (p.step g).nesting = p.nesting := by
    simp only [step, Nesting.step, openedAfter_of_not_significant h, h, hc, if_false,
      Bool.false_eq_true]
  calc p.step g = ⟨(p.step g).nesting, (p.step g).ended, (p.step g).broken⟩ := rfl
    _ = ⟨p.nesting, p.ended, p.broken⟩ := by
      rw [hnesting, step_ended_of_not h, step_broken_of_not h hc]

variable {gs : List Glyph}

theorem run_opened_of_not (p : Progress) (h : ∀ g ∈ gs, g.isSignificant = false) :
    (p.run gs).nesting.opened = p.nesting.opened := by
  induction gs generalizing p with
  | nil => rfl
  | cons g gs ih =>
    rw [run_cons, ih _ fun a ha => h a (List.mem_cons_of_mem _ ha),
      step_opened_of_not (h g (List.mem_cons_self ..))]

theorem run_callClosed_of_not (p : Progress) (h : ∀ g ∈ gs, g.isSignificant = false) :
    (p.run gs).nesting.callClosed = p.nesting.callClosed := by
  induction gs generalizing p with
  | nil => rfl
  | cons g gs ih =>
    rw [run_cons, ih _ fun a ha => h a (List.mem_cons_of_mem _ ha),
      step_callClosed_of_not (h g (List.mem_cons_self ..))]

theorem run_ended_of_not (p : Progress) (h : ∀ g ∈ gs, g.isSignificant = false) :
    (p.run gs).ended = p.ended := by
  induction gs generalizing p with
  | nil => rfl
  | cons g gs ih =>
    rw [run_cons, ih _ fun a ha => h a (List.mem_cons_of_mem _ ha),
      step_ended_of_not (h g (List.mem_cons_self ..))]

theorem run_broken_of_not (p : Progress) (h : ∀ g ∈ gs, g.isSignificant = false)
    (hc : ∀ g ∈ gs, g.char ≠ '\n') : (p.run gs).broken = p.broken := by
  induction gs generalizing p with
  | nil => rfl
  | cons g gs ih =>
    rw [run_cons, ih _ (fun a ha => h a (List.mem_cons_of_mem _ ha))
      (fun a ha => hc a (List.mem_cons_of_mem _ ha)),
      step_broken_of_not (h g (List.mem_cons_self ..)) (hc g (List.mem_cons_self ..))]

theorem isFresh_run_of_not {p : Progress} {rest : List Glyph}
    (h : ∀ g ∈ gs, g.isSignificant = false) (hfresh : p.isFresh (gs ++ rest) = true) :
    (p.run gs).isFresh rest = true := by
  induction gs generalizing p with
  | nil => exact hfresh
  | cons g gs ih =>
    exact ih (fun a ha => h a (List.mem_cons_of_mem _ ha))
      (isFresh_step_of_not (h g (List.mem_cons_self ..)) hfresh)

theorem run_line (p : Progress) (gs : List Glyph) :
    (p.run gs).nesting.line = p.nesting.line + (gs.map Glyph.char).count '\n' := by
  induction gs generalizing p with
  | nil => rfl
  | cons g gs ih =>
    rw [run_cons, ih, List.map_cons, List.count_cons]
    simp only [step, Nesting.step, beq_iff_eq]
    split <;> omega

/-- Every open bracket stands on the current line. -/
def OnLine (p : Progress) : Prop := ∀ l ∈ p.nesting.opened, l = p.nesting.line

theorem step_line {p : Progress} {g : Glyph} (h : g.char ≠ '\n') :
    (p.step g).nesting.line = p.nesting.line := by
  simp [step, Nesting.step, h]

theorem OnLine.step {p : Progress} {g : Glyph} (h : OnLine p) (hg : g.char ≠ '\n') :
    OnLine (p.step g) := by
  unfold OnLine
  rw [step_line hg]
  intro l hl
  simp only [Progress.step, Nesting.step, Nesting.openedAfter] at hl
  split at hl
  · rcases List.mem_cons.mp hl with rfl | hl
    · rfl
    · exact h l hl
  split at hl
  · exact h l (List.mem_of_mem_tail hl)
  · exact h l hl

theorem OnLine.run {p : Progress} (h : OnLine p) (hgs : ∀ g ∈ gs, g.char ≠ '\n') :
    OnLine (p.run gs) := by
  induction gs generalizing p with
  | nil => exact h
  | cons g gs ih =>
    exact ih (h.step (hgs g (List.mem_cons_self ..))) fun a ha => hgs a (List.mem_cons_of_mem _ ha)

/-- A call that was closed was opened on the current line. -/
def ClosedOnLine (p : Progress) : Prop := ∀ l ∈ p.nesting.callClosed, l = p.nesting.line

theorem OnLine.step_significant {p : Progress} {g : Glyph} (h : OnLine p)
    (hg : g.isSignificant = true) : ClosedOnLine (p.step g) := by
  intro l hl
  rw [step_line (Glyph.char_ne_newline_of_isSignificant hg)]
  simp only [Progress.step, Nesting.step, hg, if_true, Nesting.callClosedBy] at hl
  split at hl
  · next l' e =>
    split at hl
    · obtain rfl := Option.some.inj hl
      exact h _ (by rw [e]; exact List.mem_singleton_self _)
    · cases hl
  · cases hl

theorem ClosedOnLine.run {p : Progress} (hc : ClosedOnLine p) (h : OnLine p)
    (hgs : ∀ g ∈ gs, g.char ≠ '\n') : ClosedOnLine (p.run gs) := by
  induction gs generalizing p with
  | nil => exact hc
  | cons g gs ih =>
    have hg := hgs g (List.mem_cons_self ..)
    refine ih ?_ (h.step hg) fun a ha => hgs a (List.mem_cons_of_mem _ ha)
    cases hs : g.isSignificant with
    | true => exact h.step_significant hs
    | false =>
      intro l hl
      rw [step_callClosed_of_not hs] at hl
      rw [step_line hg]
      exact hc l hl

/-- On a line that begins outside all brackets no semicolon follows a call over several lines,
once something significant stands on the line. -/
theorem not_afterMultilineCall {p : Progress} (ho : p.isOuter = true)
    (hgs : ∀ g ∈ gs, g.char ≠ '\n') (hs : ∃ g ∈ gs, g.isSignificant = true) :
    (p.run gs).nesting.afterMultilineCall = false := by
  have hline : OnLine p := by
    intro l hl
    rw [List.isEmpty_iff.mp ho] at hl
    cases hl
  obtain ⟨g, hg, hsig⟩ := hs
  obtain ⟨a, b, rfl⟩ := List.append_of_mem hg
  have ha : ∀ x ∈ a, x.char ≠ '\n' := fun x hx => hgs x (List.mem_append_left _ hx)
  have hb : ∀ x ∈ b, x.char ≠ '\n' :=
    fun x hx => hgs x (List.mem_append_right _ (List.mem_cons_of_mem _ hx))
  have hbefore := hline.run ha
  have hclosed := (hbefore.step_significant hsig).run
    (hbefore.step (Glyph.char_ne_newline_of_isSignificant hsig)) hb
  rw [run_append, run_cons]
  unfold Nesting.afterMultilineCall
  cases hcall : (((p.run a).step g).run b).nesting.callClosed with
  | none => rfl
  | some l =>
    rw [hclosed l (Option.mem_def.mpr hcall)]
    simp

/-- One of the glyphs is a semicolon that ends a statement. -/
def endsWithin (p : Progress) : List Glyph → Bool
  | [] => false
  | g :: gs => p.endsAt g || endsWithin (p.step g) gs

/-- Within a line only semicolons are boundaries. -/
theorem any_boundary_cellsTo (p : Progress) {gs : List Glyph} (following : List Glyph)
    (h : ∀ g ∈ gs, g.char ≠ '\n') :
    (p.cellsTo gs following).any Cell.boundary = p.endsWithin gs := by
  induction gs generalizing p with
  | nil => rfl
  | cons g gs ih =>
    have hbreaks : p.breaksAt g = false := by
      simp [breaksAt, h g (List.mem_cons_self ..)]
    rw [cellsTo, List.any_cons, ih _ fun a ha => h a (List.mem_cons_of_mem _ ha), endsWithin,
      cellAt, isBoundary_eq, hbreaks, Bool.false_and, Bool.or_false]

theorem dropLast_cellsTo (p : Progress) (gs : List Glyph) (g : Glyph) (following : List Glyph) :
    (p.cellsTo (gs ++ [g]) following).dropLast = p.cellsTo gs ([g] ++ following) := by
  rw [cellsTo_append, cellsTo, cellsTo, List.dropLast_concat]

end Progress

theorem cells_eq_cellsTo (source : List Char) :
    cells source = Progress.initial.cellsTo (glyphs source) [] :=
  Progress.cellsFrom_eq_cellsTo .initial (glyphs source)

end SnippetRunner.Source
