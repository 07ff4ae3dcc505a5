import SnippetRunner.Proofs.Source.Progress

/-
  Calls over several lines. The walk remembers the line on which a call was opened that has just
  been closed. `OpenSince` and `ClosesCall` say what it remembers in terms of the cells before a
  place, and `boundary_of_semicolon` what follows: a semicolon in code, outside all brackets, ends
  a statement unless it stands behind a call that was opened on an earlier line.
-/
namespace SnippetRunner.Source

open SnippetRunner.Text

/-- Behind `before` a bracket is open, and the outermost of those open stands on line `line`. -/
def OpenSince (before : List Cell) (line : Nat) : Prop :=
  ∃ earlier opening inside, before = earlier ++ opening :: inside ∧ opening.isCode = true ∧
    isOpening opening.char = true ∧ opening.depth = 0 ∧
    (∀ c ∈ opening :: inside, c.depthAfter ≠ 0) ∧ line = newlines (earlier.map Cell.char)

/-- The last significant character of `before` is a parenthesis that leaves no bracket open, and
the outermost bracket before it stands on line `line`. -/
def ClosesCall (before : List Cell) (line : Nat) : Prop :=
  ∃ inside close gap, before = inside ++ close :: gap ∧ OpenSince inside line ∧
    close.isCode = true ∧ close.char = ')' ∧ close.depthAfter = 0 ∧
    ∀ c ∈ gap, c.isSignificant = false

/-- The last significant character of `before` closes a call that was opened on an earlier line
than the one on which `before` ends. -/
def EndsLongCall (before : List Cell) : Prop :=
  ∃ line, ClosesCall before line ∧ line < newlines (before.map Cell.char)

/-! ## From the end -/

section

variable {before : List Cell} {c : Cell} {line : Nat}

theorem not_openSince_nil : ¬OpenSince [] line := by
  rintro ⟨earlier, opening, inside, h, -⟩
  simp at h

theorem openSince_concat : OpenSince (before ++ [c]) line ↔
    c.depthAfter ≠ 0 ∧ (OpenSince before line ∨ (c.isCode = true ∧ isOpening c.char = true ∧
      c.depth = 0 ∧ line = newlines (before.map Cell.char))) := by
  constructor
  · rintro ⟨earlier, opening, inside, h, hcode, hopening, hdepth, hinside, hline⟩
    cases inside.eq_nil_or_concat' with
    | inl hnil =>
      rw [hnil] at h hinside
      obtain ⟨rfl, hc⟩ := List.append_inj' h rfl
      obtain rfl := (List.cons.inj hc).1
      exact ⟨hinside c (List.mem_singleton_self c), Or.inr ⟨hcode, hopening, hdepth, hline⟩⟩
    | inr hconcat =>
      obtain ⟨init, d, rfl⟩ := hconcat
      rw [← List.cons_append, ← List.append_assoc] at h
      obtain ⟨rfl, hc⟩ := List.append_inj' h rfl
      obtain rfl := (List.cons.inj hc).1
      refine ⟨hinside c (by simp), Or.inl ⟨earlier, opening, init, rfl, hcode, hopening, hdepth,
        fun d hd => hinside d ?_, hline⟩⟩
      rw [← List.cons_append]
      exact List.mem_append_left _ hd
  · rintro ⟨hafter, ⟨earlier, opening, inside, rfl, hcode, hopening, hdepth, hinside, hline⟩ |
      ⟨hcode, hopening, hdepth, hline⟩⟩
    · refine ⟨earlier, opening, inside ++ [c], by simp, hcode, hopening, hdepth, fun d hd => ?_,
        hline⟩
      rw [← List.cons_append] at hd
      rcases List.mem_append.mp hd with hd | hd
      · exact hinside d hd
      · rw [List.mem_singleton.mp hd]
        exact hafter
    · exact ⟨before, c, [], rfl, hcode, hopening, hdepth, by simpa using hafter, hline⟩

theorem not_closesCall_nil : ¬ClosesCall [] line := by
  rintro ⟨inside, close, gap, h, -⟩
  simp at h

theorem closesCall_concat : ClosesCall (before ++ [c]) line ↔
    (c.isSignificant = false ∧ ClosesCall before line) ∨
      (OpenSince before line ∧ c.isCode = true ∧ c.char = ')' ∧ c.depthAfter = 0) := by
  constructor
  · rintro ⟨inside, close, gap, h, hopen, hcode, hchar, hafter, hgap⟩
    cases gap.eq_nil_or_concat' with
    | inl hnil =>
      rw [hnil] at h
      obtain ⟨rfl, hc⟩ := List.append_inj' h rfl
      obtain rfl := (List.cons.inj hc).1
      exact Or.inr ⟨hopen, hcode, hchar, hafter⟩
    | inr hconcat =>
      obtain ⟨init, d, rfl⟩ := hconcat
      rw [← List.cons_append, ← List.append_assoc] at h
      obtain ⟨rfl, hc⟩ := List.append_inj' h rfl
      obtain rfl := (List.cons.inj hc).1
      exact Or.inl ⟨hgap c (by simp), inside, close, init, rfl, hopen, hcode, hchar, hafter,
        fun d hd => hgap d (List.mem_append_left _ hd)⟩
  · rintro (⟨hc, inside, close, gap, rfl, hopen, hcode, hchar, hafter, hgap⟩ |
      ⟨hopen, hcode, hchar, hafter⟩)
    · refine ⟨inside, close, gap ++ [c], by simp, hopen, hcode, hchar, hafter, fun d hd => ?_⟩
      rcases List.mem_append.mp hd with hd | hd
      · exact hgap d hd
      · rw [List.mem_singleton.mp hd]
        exact hc
    · exact ⟨before, c, [], rfl, hopen, hcode, hchar, hafter, by simp⟩

end

/-! ## What the walk remembers -/

/-- While brackets stay open, the outermost stays the same. -/
theorem Nesting.getLast?_openedAfter {n : Nesting} {g : Glyph} {line : Nat} :
    (n.openedAfter g).getLast? = some line ↔ n.openedAfter g ≠ [] ∧
      (n.opened.getLast? = some line ∨
        (g.isCode = true ∧ isOpening g.char = true ∧ n.opened = [] ∧ line = n.line)) := by
  unfold Nesting.openedAfter
  split
  · next h =>
    rw [Bool.and_eq_true] at h
    cases n.opened with
    | nil => simp [h.1, h.2, eq_comm]
    | cons l ls => simp
  · split
    · cases n.opened with
      | nil => simp
      | cons l ls =>
        cases ls with
        | nil => simp
        | cons l' ls => simp
    · cases n.opened with
      | nil => simp
      | cons l ls => simp

theorem Nesting.callClosedBy_eq_some_iff {n : Nesting} {g : Glyph} {line : Nat} :
    n.callClosedBy g = some line ↔ n.opened = [line] ∧ g.isCode = true ∧ g.char = ')' := by
  unfold Nesting.callClosedBy
  split
  · next l h =>
    rw [h]
    split
    · next hc => simpa using fun _ => hc
    · next hc =>
      have hc : ¬(g.isCode = true ∧ g.char = ')') := by simpa using hc
      exact iff_of_false (by simp) fun h => hc h.2
  · next h =>
    refine iff_of_false (by simp) ?_
    rintro ⟨hopened, -⟩
    exact h line hopened

variable {gs following : List Glyph} {line : Nat}

theorem openSince_cellsTo : OpenSince (Progress.initial.cellsTo gs following) line ↔
    (Progress.initial.run gs).nesting.opened.getLast? = some line := by
  induction gs using List.reverseRecOn generalizing following with
  | nil => exact iff_of_false not_openSince_nil (by simp [Progress.run, Progress.initial,
      Nesting.initial])
  | append_singleton gs g ih =>
    have hline := Progress.run_line .initial gs
    have hdepth : ((Progress.initial.run gs).cellAt g following).depth = 0 ↔
        (Progress.initial.run gs).nesting.opened = [] := List.length_eq_zero_iff
    have hafter : ((Progress.initial.run gs).cellAt g following).depthAfter ≠ 0 ↔
        (Progress.initial.run gs).nesting.openedAfter g ≠ [] := List.length_eq_zero_iff.not
    have hstep : ((Progress.initial.run gs).step g).nesting.opened =
        (Progress.initial.run gs).nesting.openedAfter g := rfl
    rw [Progress.run_concat, hstep, Nesting.getLast?_openedAfter, Progress.cellsTo_append,
      Progress.cellsTo, Progress.cellsTo, List.nil_append, openSince_concat, ih, hafter, hdepth,
      Progress.map_char_cellsTo, hline]
    simp only [Progress.initial, Nesting.initial, Nat.zero_add]
    exact Iff.rfl

/-- A parenthesis leaves no bracket open exactly if it closes the only one. -/
theorem Nesting.closes_iff {n : Nesting} {g : Glyph} {line : Nat} :
    n.opened.getLast? = some line ∧ g.isCode = true ∧ g.char = ')' ∧ n.openedAfter g = [] ↔
      n.callClosedBy g = some line := by
  rw [Nesting.callClosedBy_eq_some_iff]
  have hpop (hcode : g.isCode = true) (hchar : g.char = ')') :
      n.openedAfter g = n.opened.tail := by
    have hopening : isOpening ')' = false := by decide
    have hclosing : isClosing ')' = true := by decide
    simp [Nesting.openedAfter, hcode, hchar, hopening, hclosing]
  constructor
  · rintro ⟨hlast, hcode, hchar, hnone⟩
    rw [hpop hcode hchar] at hnone
    refine ⟨?_, hcode, hchar⟩
    cases hopened : n.opened with
    | nil => simp [hopened] at hlast
    | cons l ls =>
      obtain rfl : ls = [] := by simpa [hopened] using hnone
      simpa [hopened] using hlast
  · rintro ⟨hopened, hcode, hchar⟩
    rw [hpop hcode hchar, hopened]
    exact ⟨rfl, hcode, hchar, rfl⟩

theorem closesCall_cellsTo : ClosesCall (Progress.initial.cellsTo gs following) line ↔
    (Progress.initial.run gs).nesting.callClosed = some line := by
  induction gs using List.reverseRecOn generalizing following with
  | nil => exact iff_of_false not_closesCall_nil (by simp [Progress.run, Progress.initial,
      Nesting.initial])
  | append_singleton gs g ih =>
    have hafter : ((Progress.initial.run gs).cellAt g following).depthAfter = 0 ↔
        (Progress.initial.run gs).nesting.openedAfter g = [] := List.length_eq_zero_iff
    rw [Progress.run_concat, Progress.cellsTo_append, Progress.cellsTo, Progress.cellsTo,
      List.nil_append, closesCall_concat, ih, openSince_cellsTo, hafter]
    have hsignificant : ((Progress.initial.run gs).cellAt g following).isSignificant =
        g.isSignificant := rfl
    have hcode : ((Progress.initial.run gs).cellAt g following).isCode = g.isCode := rfl
    have hchar : ((Progress.initial.run gs).cellAt g following).char = g.char := rfl
    rw [hsignificant, hcode, hchar]
    generalize (Progress.initial.run gs) = p
    rw [Nesting.closes_iff]
    cases hg : g.isSignificant with
    | true => simp [Progress.step, Nesting.step, hg]
    | false =>
      have hnone : p.nesting.callClosedBy g ≠ some line := by
        rw [Ne, Nesting.callClosedBy_eq_some_iff]
        rintro ⟨-, hcode, hchar⟩
        rw [Glyph.isSignificant_of_isCode hcode (by rw [hchar]; decide)] at hg
        cases hg
      simp [Progress.step, Nesting.step, hg, hnone]

theorem endsLongCall_cellsTo : EndsLongCall (Progress.initial.cellsTo gs following) ↔
    (Progress.initial.run gs).nesting.afterMultilineCall = true := by
  have hline : (Progress.initial.run gs).nesting.line = newlines (gs.map Glyph.char) := by
    rw [Progress.run_line]
    exact Nat.zero_add _
  rw [EndsLongCall, Progress.map_char_cellsTo, Nesting.afterMultilineCall, Option.any_eq_true]
  simp only [closesCall_cellsTo, hline, decide_eq_true_eq]

/-- In code, outside all brackets, a semicolon ends no statement exactly if it stands behind a
call that was opened on an earlier line. -/
theorem boundary_of_semicolon {source : List Char} {before after : List Cell} {c : Cell}
    (h : cells source = before ++ c :: after) (hcode : c.isCode = true) (hchar : c.char = ';')
    (hdepth : c.depth = 0) : c.boundary = false ↔ EndsLongCall before := by
  rw [cells_eq_cellsTo] at h
  obtain ⟨-, hbefore, hbehind⟩ := Progress.cellsTo_eq_append h
  obtain ⟨gs, hgs⟩ : ∃ gs, gs = before.map Cell.glyph := ⟨_, rfl⟩
  rw [List.map_cons, Progress.cellsTo, List.cons.injEq, ← hgs] at hbehind
  have hopened : (Progress.initial.run gs).nesting.opened = [] := by
    rw [hbehind.1] at hdepth
    exact List.length_eq_zero_iff.mp hdepth
  have hcode : c.glyph.isCode = true := hcode
  have hchar : c.glyph.char = ';' := hchar
  rw [hbefore, hbehind.1, endsLongCall_cellsTo, ← hgs]
  simp [Progress.cellAt, Nesting.isBoundary, hcode, hopened, hchar]

end SnippetRunner.Source
