import SnippetRunner.Proofs.Source.Borders
import SnippetRunner.Proofs.Source.Fresh
import SnippetRunner.Proofs.Source.Uncommented
import SnippetRunner.Proofs.Source.Veil

/-
  Comments behind a veil. The walk over brackets passes over a comment as over as many marks, and
  only the line ends in it count. The lexer, too, comes out of a comment as it went in, so the
  rest of a line is read as if its comments were not there.
-/
namespace SnippetRunner.Source

open SnippetRunner.Text

/-- Hides what comments say, but not where their lines end. -/
def inComments : Cover where
  hides g := g.isComment && !decide (g.char = '\n')
  mark := '/'
  narrow := by decide
  uniform {g b} h := by
    have hchar : b.char = '\n' ↔ g.char = '\n' := by
      rcases g.bytes_cases with ⟨-, hbytes⟩ | ⟨hg, _, _, hbytes, hwide⟩
      · rw [hbytes, List.mem_singleton] at h
        rw [h]
      · rw [hbytes] at h
        have hnarrow : ¬IsWide '\n' := by decide
        exact ⟨fun e => absurd e ((hwide b h).1.ne hnarrow), fun e => absurd e (hg.ne hnarrow)⟩
    rw [Glyph.isComment, Glyph.isComment, Glyph.region_of_mem_bytes h, decide_eq_decide.mpr hchar]

section

variable {g : Glyph} {gs : List Glyph}

theorem hides_iff : inComments.hides g = true ↔ g.isComment = true ∧ g.char ≠ '\n' := by
  simp [inComments]

theorem not_hides_of_not_isComment (h : g.isComment = false) : inComments.hides g = false := by
  simp [inComments, h]

theorem not_hides_of_newline (h : g.char = '\n') : inComments.hides g = false := by
  simp [inComments, h]

theorem not_hides_of_isSignificant (h : g.isSignificant = true) : inComments.hides g = false :=
  not_hides_of_not_isComment (Glyph.isSignificant_iff.mp h).1

theorem not_significant_of_isComment (h : g.isComment = true) : g.isSignificant = false := by
  rw [Glyph.isSignificant, h]
  rfl

/-- A mark of the veil belongs to a comment, and is no line end. -/
theorem mark_of_hides (h : inComments.hides g = true) :
    ∀ b ∈ inComments.seen g, b.isComment = true ∧ b.char ≠ '\n' := by
  intro b hb
  have hregion := Cover.region_of_mem_seen hb
  rw [Cover.seen_of_hidden h] at hb
  refine ⟨by rw [Glyph.isComment, hregion]; exact (hides_iff.mp h).1, ?_⟩
  rw [List.eq_of_mem_replicate hb]
  exact (by decide : '/' ≠ '\n')

theorem of_mem_veil {b : Glyph} (h : b ∈ inComments.veil gs) :
    b ∈ gs ∨ (b.isComment = true ∧ b.char ≠ '\n' ∧ ∃ g ∈ gs, inComments.hides g = true) := by
  obtain ⟨g, hg, hb⟩ := List.mem_flatMap.mp h
  cases hides : inComments.hides g with
  | true =>
    obtain ⟨hcomment, hchar⟩ := mark_of_hides hides b hb
    exact Or.inr ⟨hcomment, hchar, g, hg, hides⟩
  | false =>
    rw [Cover.seen_of_not hides, List.mem_singleton] at hb
    exact Or.inl (hb ▸ hg)

theorem uncommented_eq_nil (h : ∀ b ∈ gs, b.isComment = true) : uncommented gs = [] := by
  rw [uncommented, List.filter_eq_nil_iff.mpr fun b hb => by simp [h b hb]]
  rfl

theorem uncommented_veil (gs : List Glyph) : uncommented (inComments.veil gs) = uncommented gs := by
  induction gs with
  | nil => rfl
  | cons g gs ih =>
    rw [Cover.veil_cons, uncommented_append, ih]
    cases hides : inComments.hides g with
    | true =>
      rw [uncommented_eq_nil fun b hb => (mark_of_hides hides b hb).1, List.nil_append,
        uncommented_cons_of_comment (hides_iff.mp hides).1]
    | false =>
      rw [Cover.seen_of_not hides, ← uncommented_append]
      rfl

/-! ### Ends of a veiled text -/

theorem of_head?_veil {b : Glyph} (h : (inComments.veil gs).head? = some b) :
    gs.head? = some b ∨ (b.isComment = true ∧ b.char = '/' ∧ gs.head?.any Glyph.isComment) := by
  cases gs with
  | nil => cases h
  | cons g gs =>
    rw [Cover.veil_cons] at h
    cases hides : inComments.hides g with
    | true =>
      have hb : b ∈ inComments.seen g := by
        rw [List.head?_append_of_ne_nil _ (Cover.seen_ne_nil _ _)] at h
        exact List.mem_of_head? h
      refine Or.inr ⟨(mark_of_hides hides b hb).1, ?_, (hides_iff.mp hides).1⟩
      rw [Cover.seen_of_hidden hides] at hb
      rw [List.eq_of_mem_replicate hb]
      rfl
    | false =>
      rw [Cover.seen_of_not hides] at h
      exact Or.inl h

theorem of_getLast?_veil {b : Glyph} (h : (inComments.veil gs).getLast? = some b) :
    gs.getLast? = some b ∨ b.char = '/' := by
  cases gs.eq_nil_or_concat' with
  | inl hnil =>
    rw [hnil] at h
    cases h
  | inr hconcat =>
    obtain ⟨init, g, rfl⟩ := hconcat
    rw [Cover.veil_append, Cover.veil_singleton,
      List.getLast?_append_of_ne_nil _ (Cover.seen_ne_nil _ _)] at h
    cases hides : inComments.hides g with
    | true =>
      have hb := List.mem_of_getLast? h
      rw [Cover.seen_of_hidden hides] at hb
      right
      rw [List.eq_of_mem_replicate hb]
      rfl
    | false =>
      rw [Cover.seen_of_not hides] at h
      left
      rw [List.getLast?_concat, ← h]
      rfl

theorem head?_veil {g : Glyph} (hg : gs.head? = some g) (hides : inComments.hides g = false) :
    (inComments.veil gs).head? = some g := by
  obtain ⟨gs, rfl⟩ := List.head?_eq_some_iff.mp hg
  rw [Cover.veil_cons, Cover.seen_of_not hides]
  rfl

theorem getLast?_veil {g : Glyph} (hg : gs.getLast? = some g)
    (hides : inComments.hides g = false) : (inComments.veil gs).getLast? = some g := by
  obtain ⟨init, rfl⟩ := List.getLast?_eq_some_iff.mp hg
  rw [Cover.veil_append, Cover.veil_singleton, Cover.seen_of_not hides, List.getLast?_concat]

end

/-! ## The walk -/

theorem continuesIn_veil (gs : List Glyph) : continuesIn (inComments.veil gs) = continuesIn gs := by
  induction gs with
  | nil => rfl
  | cons g gs ih =>
    rw [Cover.veil_cons]
    cases hides : inComments.hides g with
    | true =>
      have hnot := not_significant_of_isComment (hides_iff.mp hides).1
      rw [continuesIn_append_of_not fun b hb =>
        not_significant_of_isComment (mark_of_hides hides b hb).1, ih, continuesIn_cons_of_not hnot]
    | false =>
      rw [Cover.seen_of_not hides, List.singleton_append]
      cases hs : g.isSignificant with
      | true => rw [continuesIn_cons_of_significant hs, continuesIn_cons_of_significant hs]
      | false => rw [continuesIn_cons_of_not hs, continuesIn_cons_of_not hs, ih]

namespace Progress

variable {p : Progress} {g : Glyph}

theorem run_of_comment {gs : List Glyph} (h : ∀ b ∈ gs, b.isComment = true ∧ b.char ≠ '\n') :
    p.run gs = p := by
  induction gs with
  | nil => rfl
  | cons b gs ih =>
    obtain ⟨hcomment, hchar⟩ := h b (List.mem_cons_self ..)
    rw [run_cons, step_of_not (not_significant_of_isComment hcomment) hchar,
      ih fun a ha => h a (List.mem_cons_of_mem _ ha)]

theorem step_of_hides (h : inComments.hides g = true) : p.step g = p :=
  step_of_not (not_significant_of_isComment (hides_iff.mp h).1) (hides_iff.mp h).2

theorem run_seen (p : Progress) (g : Glyph) : p.run (inComments.seen g) = p.step g := by
  cases hides : inComments.hides g with
  | true => rw [run_of_comment (mark_of_hides hides), step_of_hides hides]
  | false =>
    rw [Cover.seen_of_not hides]
    rfl

theorem run_veil (p : Progress) (gs : List Glyph) : p.run (inComments.veil gs) = p.run gs := by
  induction gs generalizing p with
  | nil => rfl
  | cons g gs ih => rw [Cover.veil_cons, run_append, run_seen, ih, run_cons]

theorem isFresh_veil (p : Progress) (gs : List Glyph) :
    p.isFresh (inComments.veil gs) = p.isFresh gs := by
  rw [isFresh, isFresh, continuesIn_veil]

theorem endsWithin_of_comment {gs : List Glyph}
    (h : ∀ b ∈ gs, b.isComment = true ∧ b.char ≠ '\n') : p.endsWithin gs = false := by
  induction gs with
  | nil => rfl
  | cons b gs ih =>
    obtain ⟨hcomment, hchar⟩ := h b (List.mem_cons_self ..)
    have hnot := not_significant_of_isComment hcomment
    rw [endsWithin, endsAt_of_not_significant hnot, step_of_not hnot hchar,
      ih fun a ha => h a (List.mem_cons_of_mem _ ha)]
    rfl

theorem endsWithin_veil (p : Progress) (gs : List Glyph) :
    p.endsWithin (inComments.veil gs) = p.endsWithin gs := by
  induction gs generalizing p with
  | nil => rfl
  | cons g gs ih =>
    rw [Cover.veil_cons, endsWithin_append, run_seen, ih, endsWithin]
    congr 1
    cases hides : inComments.hides g with
    | true =>
      rw [endsWithin_of_comment (mark_of_hides hides),
        endsAt_of_not_significant (not_significant_of_isComment (hides_iff.mp hides).1)]
    | false => rw [Cover.seen_of_not hides, endsWithin, endsWithin, Bool.or_false]

end Progress

/-! ## Cells -/

/-- What is seen of a cell. -/
def Cell.seen (c : Cell) : List Cell := (inComments.seen c.glyph).map ({ c with glyph := · })

section

variable {c : Cell}

theorem Cell.seen_of_not (h : inComments.hides c.glyph = false) : c.seen = [c] := by
  rw [seen, Cover.seen_of_not h]
  rfl

theorem Cell.seen_ne_nil (c : Cell) : c.seen ≠ [] := by
  rw [seen, Ne, List.map_eq_nil_iff]
  exact Cover.seen_ne_nil _ _

theorem Cell.of_mem_seen {d : Cell} (h : d ∈ c.seen) :
    d.glyph ∈ inComments.seen c.glyph ∧ d.depth = c.depth ∧ d.depthAfter = c.depthAfter ∧
      d.boundary = c.boundary ∧ d.fresh = c.fresh := by
  obtain ⟨g, hg, rfl⟩ := List.mem_map.mp h
  exact ⟨hg, rfl, rfl, rfl, rfl⟩

theorem map_glyph_flatMap_seen (cs : List Cell) :
    (cs.flatMap Cell.seen).map Cell.glyph = inComments.veil (cs.map Cell.glyph) := by
  induction cs with
  | nil => rfl
  | cons c cs ih =>
    rw [List.flatMap_cons, List.map_append, ih, List.map_cons, Cover.veil_cons, Cell.seen,
      List.map_map]
    exact congrArg (· ++ _) (List.map_id _)

end

namespace Progress

/-- The cell of a hidden glyph tells no more than the place it stands at. -/
theorem cellAt_of_hides {p : Progress} {g : Glyph} (h : g.isComment = true) (hchar : g.char ≠ '\n')
    (following : List Glyph) :
    p.cellAt g following = ⟨g, p.nesting.depth, p.nesting.depth, false, p.isFresh following⟩ := by
  have hnot := not_significant_of_isComment h
  have hstep : p.nesting.step g = p.nesting := congrArg nesting (step_of_not hnot hchar)
  have hcode : g.isCode = false := by
    rw [← Bool.not_eq_true]
    intro hcode
    rw [Glyph.not_isComment_of_isCode hcode] at h
    cases h
  have hboundary : p.nesting.isBoundary g following = false := by
    rw [Nesting.isBoundary, hcode]
    rfl
  rw [cellAt, hstep, hboundary, isFresh, isFresh, continuesIn_cons_of_not hnot]

theorem cellsTo_of_comment {p : Progress} {gs : List Glyph}
    (h : ∀ b ∈ gs, b.isComment = true ∧ b.char ≠ '\n') (following : List Glyph) :
    p.cellsTo gs following =
      gs.map (⟨·, p.nesting.depth, p.nesting.depth, false, p.isFresh following⟩) := by
  induction gs with
  | nil => rfl
  | cons b gs ih =>
    obtain ⟨hcomment, hchar⟩ := h b (List.mem_cons_self ..)
    have hrest := fun a ha => h a (List.mem_cons_of_mem _ ha)
    have hfresh : p.isFresh (gs ++ following) = p.isFresh following := by
      rw [isFresh, isFresh, continuesIn_append_of_not fun a ha =>
        not_significant_of_isComment (hrest a ha).1]
    rw [cellsTo, cellAt_of_hides hcomment hchar, hfresh,
      step_of_not (not_significant_of_isComment hcomment) hchar, ih hrest, List.map_cons]

theorem cellAt_veil (p : Progress) (g : Glyph) (following : List Glyph) :
    p.cellAt g (inComments.veil following) = p.cellAt g following := by
  have hcontinues : continuesIn (g :: inComments.veil following) =
      continuesIn (g :: following) := by
    cases hs : g.isSignificant with
    | true => rw [continuesIn_cons_of_significant hs, continuesIn_cons_of_significant hs]
    | false => rw [continuesIn_cons_of_not hs, continuesIn_cons_of_not hs, continuesIn_veil]
  rw [cellAt, cellAt, isBoundary_eq, isBoundary_eq, continuesIn_veil, isFresh, isFresh, hcontinues]

/-- The cells of a veiled text are what is seen of its cells. -/
theorem cellsTo_veil (p : Progress) (gs following : List Glyph) :
    p.cellsTo (inComments.veil gs) (inComments.veil following) =
      (p.cellsTo gs following).flatMap Cell.seen := by
  induction gs generalizing p with
  | nil => rfl
  | cons g gs ih =>
    rw [Cover.veil_cons, cellsTo_append, ← Cover.veil_append, run_seen, ih, cellsTo,
      List.flatMap_cons]
    congr 1
    cases hides : inComments.hides g with
    | true =>
      obtain ⟨hcomment, hchar⟩ := hides_iff.mp hides
      rw [cellsTo_of_comment (mark_of_hides hides), cellAt_of_hides hcomment hchar, Cell.seen,
        isFresh_veil]
    | false =>
      rw [Cover.seen_of_not hides, cellsTo, cellsTo, Cell.seen_of_not (by exact hides),
        List.nil_append, cellAt_veil]

end Progress

/-- The cells of a script behind the veil. -/
def veiledCells (source : List Char) : List Cell := (cells source).flatMap Cell.seen

theorem veiledCells_eq (source : List Char) :
    veiledCells source = Progress.initial.cellsTo (inComments.veil (glyphs source)) [] := by
  rw [veiledCells, cells_eq_cellsTo, ← Progress.cellsTo_veil]
  rfl

/-! ## Boundaries and depths of lines -/

theorem offsetsOf_of_none {α : Type} {char : α → Char} {p : α → Bool} {part : List α}
    (h : ∀ a ∈ part, p a = false) (start : Nat) (rest : List α) :
    offsetsOf char p start (part ++ rest) =
      offsetsOf char p (start + utf8Length (part.map char)) rest := by
  induction part generalizing start with
  | nil => rfl
  | cons a part ih =>
    rw [List.cons_append, offsetsOf, h a (List.mem_cons_self ..),
      ih fun b hb => h b (List.mem_cons_of_mem _ hb), List.map_cons, utf8Length_cons,
      Nat.add_assoc]
    rfl

/-- A hidden cell is no boundary. -/
theorem boundary_of_hides {source : List Char} {c : Cell} (hc : c ∈ cells source)
    (h : inComments.hides c.glyph = true) : c.boundary = false := by
  rw [cells_eq_cellsTo] at hc
  cases hboundary : c.boundary with
  | false => rfl
  | true =>
    have hcode := (Progress.of_boundary hc hboundary).1
    have hcomment := (hides_iff.mp h).1
    rw [Glyph.not_isComment_of_isCode hcode] at hcomment
    cases hcomment

theorem Cell.utf8Length_seen (c : Cell) :
    utf8Length (c.seen.map Cell.char) = c.char.utf8Size := by
  cases hides : inComments.hides c.glyph with
  | true =>
    have hone : inComments.mark.utf8Size = 1 := by decide
    simp [Cell.seen, Cover.seen_of_hidden hides, Cell.char, utf8Length, hone]
  | false => simp [Cell.seen_of_not hides]

theorem offsetsOf_seen {cs : List Cell}
    (h : ∀ c ∈ cs, inComments.hides c.glyph = true → c.boundary = false) (start : Nat) :
    offsetsOf Cell.char Cell.boundary start (cs.flatMap Cell.seen) =
      offsetsOf Cell.char Cell.boundary start cs := by
  induction cs generalizing start with
  | nil => rfl
  | cons c cs ih =>
    have hrest := ih fun d hd => h d (List.mem_cons_of_mem _ hd)
    rw [List.flatMap_cons]
    cases hides : inComments.hides c.glyph with
    | true =>
      have hboundary := h c (List.mem_cons_self ..) hides
      rw [offsetsOf_of_none fun d hd => (Cell.of_mem_seen hd).2.2.2.1.trans hboundary,
        c.utf8Length_seen, hrest, offsetsOf, hboundary]
      rfl
    | false => rw [Cell.seen_of_not hides, List.singleton_append, offsetsOf, offsetsOf, hrest]

/-- The boundaries of a script are told by its veil. -/
theorem boundaries_eq_veiled (source : List Char) :
    boundaries source = offsetsOf Cell.char Cell.boundary 0 (veiledCells source) :=
  (offsetsOf_seen (fun _ hc => boundary_of_hides hc) 0).symm

theorem filter_newline_seen (cs : List Cell) :
    (cs.flatMap Cell.seen).filter (·.char = '\n') = cs.filter (·.char = '\n') := by
  induction cs with
  | nil => rfl
  | cons c cs ih =>
    rw [List.flatMap_cons, List.filter_append, ih, ← List.singleton_append (l := cs),
      List.filter_append]
    congr 1
    cases hides : inComments.hides c.glyph with
    | true =>
      have hc : c.char ≠ '\n' := (hides_iff.mp hides).2
      have hseen : ∀ d ∈ c.seen, ¬decide (d.char = '\n') = true := fun d hd => by
        have hd : d.char ≠ '\n' := (mark_of_hides hides _ (Cell.of_mem_seen hd).1).2
        simpa using hd
      rw [List.filter_eq_nil_iff.mpr hseen]
      simp [hc]
    | false => rw [Cell.seen_of_not hides]

theorem getLast?_flatMap_seen (cs : List Cell) :
    (cs.flatMap Cell.seen).getLast?.map Cell.depthAfter = cs.getLast?.map Cell.depthAfter := by
  cases cs.eq_nil_or_concat' with
  | inl hnil => rw [hnil, List.flatMap_nil]
  | inr hconcat =>
    obtain ⟨init, c, rfl⟩ := hconcat
    obtain ⟨more, d, hd⟩ := c.seen.eq_nil_or_concat'.resolve_left c.seen_ne_nil
    have hmem : d ∈ c.seen := by rw [hd]; simp
    rw [List.flatMap_append, List.flatMap_singleton, hd, ← List.append_assoc,
      List.getLast?_concat, List.getLast?_concat, Option.map_some, Option.map_some,
      (Cell.of_mem_seen hmem).2.2.1]

theorem lineDepths_eq_veiled (source : List Char) :
    lineDepths source = 0 :: endDepths 0 (veiledCells source) := by
  rw [lineDepths_eq, endDepths, endDepths, veiledCells, filter_newline_seen, getLast?_flatMap_seen]

end SnippetRunner.Source
