import SnippetRunner.Proofs.Offset.Search
import SnippetRunner.Proofs.Script.LastStatement

/-
  Returning the last statement by offset. Statements stand between the offsets behind the
  boundaries; from the last one back, the first with a significant byte is taken apart.
  `returnLast?_eq`: its bytes and its parts can be read, and the parts join to the script with
  the value returned.
-/
namespace SnippetRunner.Script

open SnippetRunner.Text SnippetRunner.Source

namespace Encoded

variable (e : Encoded)

/-- The offsets between which the statements stand: one ends behind every boundary, and the last
at the end of the script. -/
def statements : List (Nat × Nat) :=
  let ends := (e.bytes.findIdxs Cell.boundary).map (· + 1)
  (0 :: ends).zip (ends ++ [utf8Length e.text])

/-- Returns the expression of the statement between two offsets, if it has one. -/
def returnExpression? (first stop : Nat) : Option Returning := do
  match ← e.last? Cell.isSignificant first stop with
  | none => return ⟨e.text, none⟩
  | some last =>
    let final ← e.bytes[last]?
    let content ← slice? e.text first (if final.char = ';' then last else last + 1)
    let expression := trimEnd content
    if expression.isEmpty then return ⟨e.text, none⟩
    else
      let dropped ← slice? e.text (first + utf8Length expression) stop
      let before ← slice? e.text 0 first
      let after ← slice? e.text stop (utf8Length e.text)
      return ⟨before ++ "return ".toList ++ expression ++ ";".toList
        ++ dropped.filter (· = '\n') ++ after, some (newlines before + 1)⟩

/-- Returns the statement between two offsets, the first of them that of a significant byte. -/
def returning? (first stop : Nat) : Option Returning := do
  let statement ← slice? e.text first stop
  let leading ← e.bytes[first]?
  if opensWithKeyword statement || (isClosing leading.char || leading.char = '{')
      || (dropStart? "async function".toList statement).isSome then
    return ⟨e.text, none⟩
  else e.returnExpression? first stop

/-- Returns the first of the statements, given from the last one back, that has a significant
byte. -/
def returnFrom? : List (Nat × Nat) → Option Returning
  | [] => some ⟨e.text, none⟩
  | (start, stop) :: earlier => do
    match ← e.first? Cell.isSignificant start stop with
    | none => returnFrom? earlier
    | some first => e.returning? first stop

end Encoded

def returnLast? (text : List Char) : Option Returning := do
  let e ← encode? text
  e.returnFrom? e.statements.reverse

/-! ## The last statement -/

namespace LastStatement

/-- What becomes of a script with this last statement. -/
def returning (s : LastStatement) (source : List Char) : Returning :=
  if s.isReturnable then ⟨s.returned, some s.line⟩ else ⟨source, none⟩

end LastStatement

variable {source : List Char}

theorem not_isWide_of_isClosing {c : Char} (h : isClosing c = true) : ¬IsWide c := by
  simp only [isClosing, Bool.or_eq_true, decide_eq_true_eq] at h
  rcases h with (rfl | rfl) | rfl <;> decide

theorem uniform_eq_char {d : Char} (hd : ¬IsWide d) : Uniform (decide <| ·.char = d) :=
  uniform_of_narrow (p := (decide <| · = d)) fun _ hc => decide_eq_false (hc.ne hd)

theorem uniform_isClosing : Uniform (isClosing ·.char) :=
  uniform_of_narrow fun _ hc => Bool.eq_false_iff.mpr fun h => not_isWide_of_isClosing h hc

/-- The part that an expression is trimmed from ends behind the last significant byte, or in
front of it if that is a semicolon. -/
theorem slice?_content {before init rest : List Cell} {last : Cell} {final : Cell}
    (h : cells source = before ++ (init ++ [last]) ++ rest) (hfinal : final ∈ last.bytes) :
    slice? source (width before)
        (if final.char = ';' then width (before ++ (init ++ [last])) - 1
          else width (before ++ (init ++ [last])) - 1 + 1) =
      some (dropSemicolon ((init ++ [last]).map Cell.char)) := by
  have hchar : final.char = ';' ↔ last.char = ';' := by
    simpa using uniform_eq_char (d := ';') (by decide) last final hfinal
  by_cases hsemi : last.char = ';'
  · have hone : width [last] = 1 := by
      rw [width, List.map_singleton, hsemi]
      decide
    rw [if_pos (hchar.mpr hsemi), dropSemicolon, if_pos (by simp [hsemi])]
    simp only [width_append, hone, ← Nat.add_assoc, Nat.add_sub_cancel]
    rw [List.map_append, List.map_singleton, List.dropLast_concat]
    have hcut : cells source = before ++ init ++ ([last] ++ rest) := by rw [h]; simp
    exact slice?_part hcut rfl rfl
  · have hpos : 0 < width (before ++ (init ++ [last])) := width_pos (by simp)
    rw [if_neg (mt hchar.mp hsemi), dropSemicolon, if_neg (by simp [hsemi]),
      Nat.sub_add_cancel hpos, width_append]
    exact slice?_part h rfl rfl

/-- The parts of a script around the expression of its last statement, as slices of its bytes. -/
theorem slices_around {s : LastStatement} (h : cells source = s.before ++ s.statement ++ s.after)
    {dropped : List Char} (hdropped : s.statement.map Cell.char = s.expression ++ dropped) :
    slice? source (width s.before + utf8Length s.expression)
        (width s.before + width s.statement) = some dropped ∧
      slice? source 0 (width s.before) = some (s.before.map Cell.char) ∧
      slice? source (width s.before + width s.statement) (utf8Length source) =
        some (s.after.map Cell.char) := by
  have hwidth : width s.statement = utf8Length s.expression + utf8Length dropped := by
    rw [width, hdropped, utf8Length_append]
  refine ⟨?_, ?_, ?_⟩
  · have hcut : source = s.before.map Cell.char ++ s.expression ++ dropped ++
        s.after.map Cell.char := by
      rw [source_eq h, hdropped]
      simp only [List.append_assoc]
    exact slice?_of_append hcut (utf8Length_append _ _).symm (by rw [hwidth, Nat.add_assoc])
  · have hcut : cells source = [] ++ s.before ++ (s.statement ++ s.after) := by rw [h]; simp
    exact slice?_part hcut rfl (Nat.zero_add _).symm
  · have hcut : cells source = s.before ++ s.statement ++ s.after ++ [] := by rw [h]; simp
    exact slice?_part hcut (width_append _ _).symm
      (by rw [← width_cells, h, width_append, width_append])

theorem returnExpression?_eq {s : LastStatement}
    (h : cells source = s.before ++ s.statement ++ s.after)
    (hany : s.statement.any Cell.isSignificant = true) :
    (encoded source).returnExpression? (width s.before) (width s.before + width s.statement) =
      some (if s.expression.isEmpty then ⟨source, none⟩ else ⟨s.returned, some s.line⟩) := by
  obtain ⟨init, last, rest, hupto, hsplit, -⟩ := exists_upToLast hany
  have hcells : cells source = s.before ++ (init ++ [last]) ++ (rest ++ s.after) := by
    rw [h, hsplit]
    simp only [List.append_assoc]
  have hlast : (encoded source).last? Cell.isSignificant (width s.before)
      (width s.before + width s.statement) =
      some (some (width (s.before ++ (init ++ [last])) - 1)) := by
    rw [last?_part uniform_isSignificant h rfl rfl, if_pos hany, hupto, width_append s.before]
  have hcut : cells source = s.before ++ init ++ [last] ++ (rest ++ s.after) := by
    rw [hcells, List.append_assoc s.before init]
  obtain ⟨final, hfinal, hget⟩ := getElem?_width_concat hcut
  rw [List.append_assoc] at hget
  obtain ⟨dropped, hdropped⟩ := s.expression_append
  have htail : s.tail = dropped.filter (· = '\n') := by
    rw [LastStatement.tail, hdropped, List.drop_left]
  have hslices := slices_around h hdropped
  have hexpression : trimEnd (dropSemicolon ((init ++ [last]).map Cell.char)) = s.expression := by
    rw [LastStatement.expression, hupto]
  simp only [Encoded.returnExpression?, hlast, hget, Option.bind_eq_bind, Option.bind_some]
  rw [show (encoded source).text = source from rfl, slice?_content hcells hfinal]
  simp only [Option.bind_some, hexpression, hslices]
  split
  · rfl
  · rw [LastStatement.returned, LastStatement.line, htail]
    rfl

theorem returning?_eq {s : LastStatement} (h : cells source = s.before ++ s.statement ++ s.after)
    (hhead : ∃ c more, s.statement = c :: more ∧ c.isSignificant = true) :
    (encoded source).returning? (width s.before) (width s.before + width s.statement) =
      some (s.returning source) := by
  obtain ⟨c, more, hstatement, hc⟩ := hhead
  have hany : s.statement.any Cell.isSignificant = true := by rw [hstatement]; simp [hc]
  have hcut : cells source = s.before ++ c :: (more ++ s.after) := by rw [h, hstatement]; simp
  obtain ⟨b, hb, hleading⟩ := getElem?_width_cons hcut
  obtain ⟨init, last, rest, hinit, hsplit, -⟩ := exists_upToLast hany
  have hclosing : isClosing b.char = isClosing c.char := uniform_isClosing c b hb
  have hbrace : decide (b.char = '{') = decide (c.char = '{') :=
    uniform_eq_char (d := '{') (by decide) c b hb
  have hform : (opensWithKeyword (s.statement.map Cell.char)
      || (isClosing b.char || decide (b.char = '{'))
      || (dropStart? "async function".toList (s.statement.map Cell.char)).isSome) =
      isStatementForm (s.statement.map Cell.char) := by
    rw [isStatementForm, hclosing, hbrace, hstatement]
    rfl
  have hslice : slice? (encoded source).text (width s.before)
      (width s.before + width s.statement) = some (s.statement.map Cell.char) :=
    slice?_part h rfl rfl
  simp only [Encoded.returning?, hslice, hleading, Option.bind_eq_bind, Option.bind_some, hform]
  cases hstart : isStatementForm (s.statement.map Cell.char) with
  | true =>
    have hnot : s.isReturnable = false := by rw [LastStatement.isReturnable, hstart]; rfl
    rw [if_pos rfl, LastStatement.returning, hnot]
    rfl
  | false =>
    rw [if_neg (by decide), returnExpression?_eq h hany, LastStatement.returning,
      LastStatement.isReturnable, hstart]
    cases s.expression.isEmpty <;> rfl

/-- The offsets of pieces that join to a part, the first of which begins at `start`. -/
def pieceSpans (start : Nat) : List (List Cell) → List (Nat × Nat)
  | [] => []
  | piece :: pieces => (start, start + width piece) :: pieceSpans (start + width piece) pieces

theorem pieceSpans_append (start : Nat) (a b : List (List Cell)) :
    pieceSpans start (a ++ b) = pieceSpans start a ++ pieceSpans (start + width a.flatten) b := by
  induction a generalizing start with
  | nil => rfl
  | cons p a ih => simp [pieceSpans, ih, Nat.add_assoc]

theorem returnFrom?_eq {pieces : List (List Cell)} {after : List Cell}
    (h : cells source = pieces.reverse.flatten ++ after) :
    (encoded source).returnFrom? (pieceSpans 0 pieces.reverse).reverse =
      some (match lastStatementIn pieces after with
        | some s => s.returning source
        | none => ⟨source, none⟩) := by
  induction pieces generalizing after with
  | nil => rfl
  | cons piece earlier ih =>
    have hcells : cells source = earlier.reverse.flatten ++ piece ++ after := by
      rw [h, List.reverse_cons, List.flatten_append, List.flatten_singleton]
    have hfirst := first?_part uniform_isSignificant hcells rfl rfl
    rw [List.reverse_cons, pieceSpans_append, Nat.zero_add, List.reverse_append, pieceSpans,
      pieceSpans, List.reverse_singleton, List.singleton_append, Encoded.returnFrom?, hfirst,
      lastStatementIn]
    split
    · next hany =>
      have hsplit := List.takeWhile_append_dropWhile (p := (!·.isSignificant)) (l := piece)
      have hwidth : width piece = width (piece.takeWhile (!·.isSignificant)) +
          width (piece.dropWhile (!·.isSignificant)) := by
        rw [← width_append, hsplit]
      have hcut : cells source = earlier.reverse.flatten ++ piece.takeWhile (!·.isSignificant) ++
          piece.dropWhile (!·.isSignificant) ++ after := by
        rw [hcells, List.append_assoc _ (piece.takeWhile _), hsplit]
      have hreturning := returning?_eq (s := ⟨_, _, _⟩) hcut (exists_dropWhile hany)
      rw [width_append, Nat.add_assoc, ← hwidth] at hreturning
      exact hreturning
    · exact ih (by rw [hcells, List.append_assoc])

theorem findIdxs_boundary_eq_nil {cs : List Cell} (hcells : ∀ c ∈ cs, c ∈ cells source)
    (h : ∀ c ∈ cs, c.boundary = false) (start : Nat) :
    (cs.flatMap Cell.bytes).findIdxs Cell.boundary start = [] := by
  refine List.findIdxs_eq_nil_iff.mpr fun b hb => ?_
  obtain ⟨c, hc, hb⟩ := List.mem_flatMap.mp hb
  rw [boundary_of_mem_bytes (hcells c hc) hb, h c hc]

/-- The ends of pieces, paired with where they begin, are their offsets; the end of a script
that ends with a boundary is added. -/
theorem zip_ends {pieces : List (List Cell)} (h : Cut Cell.boundary pieces)
    (hcells : ∀ c ∈ pieces.flatten, c ∈ cells source) (start : Nat) :
    let ends := ((pieces.flatten.flatMap Cell.bytes).findIdxs Cell.boundary start).map (· + 1)
    ∃ final, (start :: ends).zip (ends ++ [start + width pieces.flatten]) =
        pieceSpans start pieces ++ final ∧
      (final = [] ∨
        final = [(start + width pieces.flatten, start + width pieces.flatten)]) := by
  induction h generalizing start with
  | nil => exact ⟨_, rfl, .inr rfl⟩
  | @unclosed piece _ hunmarked =>
    rw [List.flatten_singleton] at hcells ⊢
    rw [findIdxs_boundary_eq_nil hcells hunmarked]
    exact ⟨[], rfl, .inl rfl⟩
  | @closed init a pieces hunmarked hmarked _ ih =>
    have hnone := findIdxs_boundary_eq_nil (fun c hc => hcells c (by simp [hc])) hunmarked start
    have ha : a.bytes = [a] :=
      Cell.bytes_of_not_isWide (not_isWide_of_boundary (hcells a (by simp)) hmarked)
    have hwidth : width (init ++ [a]) = width init + 1 := by
      rw [width_append, ← length_flatMap_bytes [a], List.flatMap_singleton, ha]
      rfl
    have hends : ((((init ++ [a]) :: pieces).flatten).flatMap Cell.bytes).findIdxs
          Cell.boundary start =
        (start + width init) ::
          ((pieces.flatten.flatMap Cell.bytes).findIdxs Cell.boundary
            (start + width init + 1)) := by
      rw [List.flatten_cons, List.flatMap_append, List.flatMap_append, List.flatMap_singleton, ha,
        List.append_assoc, List.findIdxs_append, hnone, List.nil_append, length_flatMap_bytes,
        List.singleton_append, List.findIdxs_cons, hmarked]
      rfl
    obtain ⟨final, hzip, hfinal⟩ :=
      ih (fun c hc => hcells c (by simp [hc])) (start + width init + 1)
    have htotal : start + width ((init ++ [a]) :: pieces).flatten =
        start + width init + 1 + width pieces.flatten := by
      rw [List.flatten_cons, width_append, hwidth]
      omega
    refine ⟨final, ?_, by rw [htotal]; exact hfinal⟩
    rw [hends, htotal, List.map_cons, List.cons_append, List.zip_cons_cons, hzip, pieceSpans,
      hwidth, ← Nat.add_assoc]
    rfl

theorem statements_encoded (source : List Char) :
    ∃ final, (encoded source).statements =
        pieceSpans 0 (splitAfter Cell.boundary (cells source)) ++ final ∧
      (final = [] ∨ final = [(width (cells source), width (cells source))]) := by
  have hcells : ∀ c ∈ (splitAfter Cell.boundary (cells source)).flatten, c ∈ cells source := by
    rw [flatten_splitAfter]
    exact fun _ hc => hc
  have h := zip_ends (cut_splitAfter Cell.boundary (cells source)) hcells 0
  rw [flatten_splitAfter, Nat.zero_add, width_cells] at h
  rw [width_cells]
  exact h

theorem returnLast?_eq (source : List Char) : returnLast? source = some (returnLast source) := by
  obtain ⟨final, hstatements, hfinal⟩ := statements_encoded source
  have hjoin : cells source =
      (splitAfter Cell.boundary (cells source)).reverse.reverse.flatten ++ [] := by
    rw [List.reverse_reverse, flatten_splitAfter, List.append_nil]
  have hpieces := returnFrom?_eq hjoin
  rw [List.reverse_reverse] at hpieces
  have hreturn : (encoded source).returnFrom? (encoded source).statements.reverse =
      (encoded source).returnFrom?
        (pieceSpans 0 (splitAfter Cell.boundary (cells source))).reverse := by
    rw [hstatements, List.reverse_append]
    rcases hfinal with rfl | rfl
    · rfl
    · have hend : cells source = cells source ++ [] ++ [] := by simp
      have hfirst := first?_part uniform_isSignificant hend rfl rfl
      rw [width_nil, Nat.add_zero] at hfirst
      rw [List.reverse_singleton, List.singleton_append, Encoded.returnFrom?, hfirst]
      rfl
  rw [returnLast?, encode?_eq, Option.bind_eq_bind, Option.bind_some, hreturn, hpieces, returnLast,
    lastStatement?]
  rfl

end SnippetRunner.Script
