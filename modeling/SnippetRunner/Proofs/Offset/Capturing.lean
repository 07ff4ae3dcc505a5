import SnippetRunner.Proofs.Offset.Search
import SnippetRunner.Proofs.Script.LineCount

/-
  Instrumenting by offset. A line stands between offsets that are counted up from the lengths of
  the lines before it. Its statement runs from its first byte that is not blank to its last
  significant one, and is taken from the text before it is looked at. `instrument?_eq`: all bytes
  and parts can be read, the line ends are kept, and the lines are the instrumented lines.
-/
namespace SnippetRunner.Script

open SnippetRunner.Text SnippetRunner.Source

/-- The offsets of a line: of its start, of the end of its content, and of the next line. -/
structure Span where
  start : Nat
  stop : Nat
  next : Nat
  deriving DecidableEq, Repr

/-- A line without the line feed that ends it and a carriage return before that. -/
def lineContent (line : List Char) : List Char :=
  if line.getLast? = some '\n' then
    if line.dropLast.getLast? = some '\r' then line.dropLast.dropLast else line.dropLast
  else line

/-- The offsets of lines, the first of which begins at `start`. -/
def spansFrom (start : Nat) : List (List Char) → List Span
  | [] => []
  | line :: lines =>
    ⟨start, start + utf8Length (lineContent line), start + utf8Length line⟩
      :: spansFrom (start + utf8Length line) lines

/-- Looks at the first character of a line's content, which must have one. -/
def skipped? (content : List Char) : Option Bool :=
  content.head?.map fun _ => isSkippedForm content

namespace Encoded

variable (e : Encoded)

/-- The line is outside all brackets, and no string, template or comment runs on from the line
before it or into the next one. -/
def standsFree (index : Nat) (line : Span) : Bool :=
  e.depthAt index = 0 && e.depthAt (index + 1) = 0
    && (line.start = 0 || e.isCode (line.start - 1))
    && (utf8Length e.text ≤ line.stop || e.isCode line.stop)

/-- The offsets of the line's first byte that is not blank, which must be no comment, and of its
last significant byte. -/
def extent? (line : Span) : Option (Option (Nat × Nat)) := do
  match ← e.first? (!isAsciiBlank ·.char) line.start line.stop with
  | none => return none
  | some start =>
    if e.isComment start then return none
    else return (← e.last? Cell.isSignificant start line.stop).map (start, ·)

/-- No significant byte stands before an offset, or a boundary from the last of them on. -/
def beginsStatement? (offset : Nat) : Option Bool := do
  match ← e.last? Cell.isSignificant 0 offset with
  | none => return true
  | some last => return e.hasBoundary last offset

/-- The next significant byte from an offset on does not continue a statement. -/
def endsStatement? (offset : Nat) : Option Bool := do
  match ← e.first? Cell.isSignificant offset e.bytes.length with
  | none => return true
  | some next => return !isContinuation (← e.bytes[next]?).char

/-- The statement ends with the line. -/
def completes? (line : Span) (content : List Char) : Option Bool :=
  if content.getLast? = some ';' || line.next = line.stop then some true
  else e.endsStatement? line.next

/-- The expression of a statement on a line, from its first byte to its last, if it is to be
captured. -/
def expression? (line : Span) (start last : Nat) : Option (Option (List Char)) := do
  let content ← slice? e.text start (last + 1)
  if !(← e.beginsStatement? start) then return none
  else if ← skipped? content then return none
  else if e.hasBoundary start last then return none
  else if !(← e.completes? line content) then return none
  else
    let expression := trimEnd (dropSemicolon content)
    return if expression.isEmpty then none else some expression

/-- The expression captured on a line, with the offset at which its statement begins. -/
def captured? (index : Nat) (line : Span) : Option (Option (Nat × List Char)) := do
  if !e.standsFree index line then return none
  else
    match ← e.extent? line with
    | none => return none
    | some (start, last) => return (← e.expression? line start last).map (start, ·)

def instrumentLine? (index : Nat) (line : Span) : Option InstrumentedLine := do
  let captured ← e.captured? index line
  let terminator ← slice? e.text line.stop line.next
  match captured with
  | some (start, expression) =>
    let indent ← slice? e.text line.start start
    return ⟨indent ++ captureCall expression (index + 1) ++ terminator,
      some (index + 1, expression)⟩
  | none =>
    let content ← slice? e.text line.start line.stop
    return ⟨content ++ terminator, none⟩

/-- Instruments lines, the first of which is preceded by `index` others. -/
def instrumentFrom? (index : Nat) : List Span → Option (List InstrumentedLine)
  | [] => some []
  | line :: lines => do
    let instrumented ← e.instrumentLine? index line
    return instrumented :: (← instrumentFrom? (index + 1) lines)

end Encoded

/-- Instruments a script, and makes sure that no line end was lost or won. -/
def instrument? (text : List Char) : Option Instrumented := do
  let e ← encode? text
  let lines ← e.instrumentFrom? 0 (spansFrom 0 (physicalLines text))
  let instrumented := lines.flatMap InstrumentedLine.text
  if newlines instrumented = newlines text then
    return ⟨instrumented, lines.filterMap InstrumentedLine.captured⟩
  else none

/-! ## Statements -/

section Statement

variable {source : List Char} {before after : List Cell}

/-- Whether the place after some cells is the start of a statement. -/
def freshBehind (fresh : Bool) (cs : List Cell) : Bool :=
  cs.foldl (fun fresh c => freshAfter fresh c.boundary c.glyph) fresh

theorem freshBehind_of_not_significant (fresh : Bool) {cs : List Cell}
    (h : ∀ c ∈ cs, c.isSignificant = false) :
    freshBehind fresh cs = (fresh || cs.any Cell.boundary) := by
  induction cs generalizing fresh with
  | nil => simp [freshBehind]
  | cons c cs ih =>
    have hc : c.glyph.isSignificant = false := h c (List.mem_cons_self ..)
    have hrest := ih (freshAfter fresh c.boundary c.glyph) fun d hd =>
      h d (List.mem_cons_of_mem _ hd)
    rw [freshBehind, List.foldl_cons, ← freshBehind, hrest, freshAfter, hc, List.any_cons]
    cases fresh <;> cases c.boundary <;> simp

theorem fresh_of_cellsFrom {n : Nesting} {fresh : Bool} {gs : List Glyph} {c : Cell}
    (h : cellsFrom n fresh gs = before ++ c :: after) : c.fresh = freshBehind fresh before := by
  induction before generalizing n fresh gs with
  | nil =>
    cases gs with
    | nil => cases h
    | cons g gs =>
      rw [cellsFrom, List.nil_append, List.cons.injEq] at h
      rw [← h.1]
      rfl
  | cons b before ih =>
    cases gs with
    | nil => cases h
    | cons g gs =>
      rw [cellsFrom, List.cons_append, List.cons.injEq] at h
      rw [ih h.2, ← h.1]
      rfl

theorem any_boundary_flatMap_bytes {cs : List Cell} (h : ∀ c ∈ cs, c ∈ cells source) :
    (cs.flatMap Cell.bytes).any Cell.boundary = cs.any Cell.boundary := by
  induction cs with
  | nil => rfl
  | cons c cs ih =>
    have hc : c.bytes.any Cell.boundary = c.boundary := by
      obtain ⟨b, more, hbytes⟩ := List.exists_cons_of_ne_nil c.bytes_ne_nil
      have hall : ∀ d ∈ c.bytes, d.boundary = c.boundary := fun d hd =>
        boundary_of_mem_bytes (h c (List.mem_cons_self ..)) hd
      cases hb : c.boundary with
      | true =>
        refine List.any_eq_true.mpr ⟨b, by rw [hbytes]; exact List.mem_cons_self .., ?_⟩
        rw [hall b (by rw [hbytes]; exact List.mem_cons_self ..), hb]
      | false => exact List.any_eq_false.mpr fun d hd => by rw [hall d hd, hb]; decide
    rw [List.flatMap_cons, List.any_append, List.any_cons, hc,
      ih fun d hd => h d (List.mem_cons_of_mem _ hd)]

theorem beginsStatement?_eq {c : Cell} (h : cells source = before ++ c :: after) :
    (encoded source).beginsStatement? (width before) = some c.fresh := by
  have hcut : cells source = [] ++ before ++ c :: after := h
  have hlast := last?_part uniform_isSignificant hcut rfl rfl
  simp only [width_nil, Nat.zero_add] at hlast
  unfold Encoded.beginsStatement?
  rw [hlast, fresh_of_cellsFrom h]
  cases hany : before.any Cell.isSignificant with
  | false =>
    have hnot : ∀ d ∈ before, d.isSignificant = false := by
      simpa using List.any_eq_false.mp hany
    rw [freshBehind_of_not_significant true hnot, Bool.true_or]
    rfl
  | true =>
    obtain ⟨init, last, rest, hupto, hsplit, hsig, hrest⟩ := exists_upToLast hany
    obtain ⟨more, b, hbytes, hjoin, hlength⟩ := exists_last_byte init last
    have hmem : ∀ d ∈ before, d ∈ cells source := fun d hd => by
      rw [h]
      exact List.mem_append_left _ hd
    have hb : b.boundary = last.boundary :=
      boundary_of_mem_bytes (hmem last (by rw [hsplit]; simp)) (by rw [hbytes]; simp)
    have hbefore : before.flatMap Cell.bytes =
        (init.flatMap Cell.bytes ++ more) ++ (b :: rest.flatMap Cell.bytes) := by
      rw [hsplit, List.flatMap_append, hjoin, List.append_assoc, List.singleton_append]
    have hboundary : (encoded source).hasBoundary (width (init ++ [last]) - 1) (width before) =
        (last.boundary || rest.any Cell.boundary) := by
      rw [Encoded.hasBoundary, bytes_encoded h, List.take_left' (length_flatMap_bytes before),
        hbefore, List.drop_left' hlength, List.any_cons, hb,
        any_boundary_flatMap_bytes fun d hd => hmem d (by rw [hsplit]; simp [hd])]
    have hfresh : freshBehind true before = (last.boundary || rest.any Cell.boundary) := by
      have hsig : last.glyph.isSignificant = true := hsig
      rw [hsplit, freshBehind, List.foldl_append, List.foldl_append, ← freshBehind,
        freshBehind_of_not_significant _ hrest, List.foldl_cons, List.foldl_nil, freshAfter, hsig]
      simp
    rw [hupto, if_pos rfl, hfresh, ← hboundary]
    rfl

theorem uniform_isContinuation : Uniform (isContinuation ·.char) :=
  uniform_of_narrow fun _ hc => not_isContinuation_of_isWide hc

theorem endsStatement?_eq (h : cells source = before ++ after) :
    (encoded source).endsStatement? (width before) =
      some (!continuesIn (after.map Cell.glyph)) := by
  have hcut : cells source = before ++ after ++ [] := by rw [h, List.append_nil]
  have hlength : (encoded source).bytes.length = width before + width after := by
    rw [length_bytes_encoded, h, width_append]
  have hfirst := first?_part uniform_isSignificant hcut rfl hlength
  unfold Encoded.endsStatement?
  rw [hfirst]
  cases hany : after.any Cell.isSignificant with
  | false =>
    have hnot : ∀ c ∈ after, c.isSignificant = false := by simpa using List.any_eq_false.mp hany
    have hcontinues := continuesIn_append_of_not (List.forall_mem_map.mpr hnot) []
    rw [List.append_nil] at hcontinues
    rw [hcontinues]
    rfl
  | true =>
    obtain ⟨c, more, hdrop, hsig⟩ := exists_dropWhile hany
    have hsplit : after = after.takeWhile (!·.isSignificant) ++ c :: more := by
      rw [← hdrop, List.takeWhile_append_dropWhile]
    have hcut : cells source = before ++ after.takeWhile (!·.isSignificant) ++ c :: more := by
      rw [h, List.append_assoc, ← hsplit]
    obtain ⟨b, hb, hget⟩ := getElem?_width_cons hcut
    have hchar : isContinuation b.char = isContinuation c.char := uniform_isContinuation c b hb
    have hcontinues : continuesIn (after.map Cell.glyph) = isContinuation c.char := by
      have hsig : c.glyph.isSignificant = true := hsig
      have hnot : ∀ d ∈ after.takeWhile (!·.isSignificant), d.isSignificant = false :=
        fun d hd => by simpa using List.mem_takeWhile_imp hd
      rw [hsplit, List.map_append, List.map_cons,
        continuesIn_append_of_not (List.forall_mem_map.mpr hnot),
        continuesIn_cons_of_significant hsig]
      rfl
    rw [width_append] at hget
    rw [if_pos rfl, hcontinues, ← hchar]
    simp only [Option.bind_eq_bind, Option.bind_some, hget]
    rfl

/-- The boundaries before the last byte of a statement are those before its last character. -/
theorem hasBoundary_eq {part : List Cell} (h : cells source = before ++ part ++ after)
    (hne : part ≠ []) :
    (encoded source).hasBoundary (width before) (width before + width part - 1) =
      part.dropLast.any Cell.boundary := by
  obtain ⟨init, last, rfl⟩ := (List.eq_nil_or_concat' part).resolve_left hne
  obtain ⟨more, b, hbytes, hjoin, hlength⟩ := exists_last_byte init last
  have hmem : ∀ d ∈ init ++ [last], d ∈ cells source := fun d hd => by
    rw [h]
    exact List.mem_append_left _ (List.mem_append_right _ hd)
  have hlast : last ∈ cells source := hmem last (by simp)
  have hmore : more.any Cell.boundary = false := by
    refine List.any_eq_false.mpr fun d hd => ?_
    have hwide : IsWide last.char := by
      by_contra hnarrow
      rw [Cell.bytes_of_not_isWide hnarrow] at hbytes
      cases more with
      | nil => cases hd
      | cons m more => simp at hbytes
    rw [boundary_of_mem_bytes hlast (by rw [hbytes]; exact List.mem_append_left _ hd)]
    exact fun hb => not_isWide_of_boundary hlast hb hwide
  have hpos : 0 < width (init ++ [last]) := width_pos (by simp)
  have hlength : (before.flatMap Cell.bytes ++ (init.flatMap Cell.bytes ++ more)).length =
      width before + width (init ++ [last]) - 1 := by
    rw [List.length_append, hlength, length_flatMap_bytes]
    omega
  rw [Encoded.hasBoundary, bytes_encoded h, List.flatMap_append, hjoin, ← List.append_assoc,
    List.append_assoc _ [b], List.take_left' hlength,
    List.drop_left' (length_flatMap_bytes before), List.any_append, hmore, Bool.or_false,
    List.dropLast_concat, any_boundary_flatMap_bytes fun d hd => hmem d (by simp [hd])]

end Statement

/-! ## The expression of a line -/

section Line

variable {source : List Char} {before after : List Cell} {line : Line} {c : Cell}

theorem isSignificant_of_not_isComment (hc : c.isComment = false)
    (hblank : (!isAsciiBlank c.char) = true) : c.isSignificant = true := by
  have hcomment : c.glyph.isComment = false := hc
  rw [Cell.isSignificant, Glyph.isSignificant, hcomment]
  exact hblank

/-- The statement of a line is empty, or begins with the first character that is no blank. -/
theorem head?_statement_any {more : List Cell}
    (hdrop : line.content.dropWhile (isAsciiBlank ·.char) = c :: more)
    (hblank : (!isAsciiBlank c.char) = true) :
    line.statement.head?.any (!·.isComment) = !c.isComment := by
  have hstatement : line.statement = upToLast Cell.isSignificant (c :: more) := by
    rw [Line.statement, hdrop]
  obtain ⟨rest, hrest, -⟩ := upToLast_append Cell.isSignificant (c :: more)
  rw [← hstatement] at hrest
  cases hs : line.statement with
  | nil =>
    -- only a comment can leave the statement empty
    cases hc : c.isComment with
    | true => rfl
    | false =>
      have hsig : (c :: more).any Cell.isSignificant = true := by
        rw [List.any_cons, isSignificant_of_not_isComment hc hblank]
        rfl
      obtain ⟨init, last, _, hinit, -⟩ := exists_upToLast hsig
      rw [← hstatement, hs] at hinit
      simp at hinit
  | cons d statement =>
    rw [hs, List.cons_append, List.cons.injEq] at hrest
    rw [List.head?_cons, Option.any_some, ← hrest.1]

theorem extent?_eq (h : cells source = before ++ line.content ++ after) (next : Nat) :
    (encoded source).extent? ⟨width before, width before + width line.content, next⟩ =
      some (if line.statement.head?.any (!·.isComment) then
        some (width before + width line.indent,
          width before + width line.indent + width line.statement - 1)
      else none) := by
  have hfirst := first?_part (uniform_isAsciiBlank.comp (!·)) h rfl rfl
  simp only [Bool.not_not] at hfirst
  unfold Encoded.extent?
  simp only [hfirst, Option.bind_eq_bind, Option.bind_some]
  cases hany : line.content.any (!isAsciiBlank ·.char) with
  | false =>
    have hnil : line.content.dropWhile (isAsciiBlank ·.char) = [] :=
      List.dropWhile_eq_nil_iff.mpr fun c hc => by simpa using List.any_eq_false.mp hany c hc
    have hstatement : line.statement = [] := by
      rw [Line.statement, hnil]
      rfl
    rw [hstatement]
    rfl
  | true =>
    obtain ⟨c, more, hdrop, hblank⟩ := exists_dropWhile hany
    simp only [Bool.not_not] at hdrop
    have hsplit : line.content = line.indent ++ c :: more := by
      rw [← hdrop, Line.indent, List.takeWhile_append_dropWhile]
    have hcells : cells source = before ++ line.indent ++ (c :: more) ++ after := by
      rw [h, hsplit]
      simp only [List.append_assoc]
    have hcut : cells source = before ++ line.indent ++ (c :: more ++ after) := by
      rw [hcells, List.append_assoc]
    have hcomment := getElem?_width uniform_isComment hcut
    rw [width_append] at hcomment
    rw [if_pos rfl, ← Line.indent, head?_statement_any hdrop hblank]
    dsimp only
    rw [Encoded.isComment, hcomment, List.cons_append, List.head?_cons, Option.map_some,
      Option.getD_some]
    cases hc : c.isComment with
    | true => rfl
    | false =>
      have hany : (c :: more).any Cell.isSignificant = true := by
        rw [List.any_cons, isSignificant_of_not_isComment hc hblank]
        rfl
      have hstop : width before + width line.content =
          width before + width line.indent + width (c :: more) := by
        rw [hsplit, width_append, Nat.add_assoc]
      have hlast := last?_part uniform_isSignificant hcells (width_append _ _).symm hstop
      rw [hany, show upToLast Cell.isSignificant (c :: more) = line.statement by
        rw [Line.statement, hdrop]] at hlast
      rw [hlast]
      rfl

theorem completes?_eq {following : List Line}
    (h : cells source =
      before ++ line.content ++ (line.terminator ++ following.flatMap Line.cells)) :
    (encoded source).completes?
        ⟨width before, width before + width line.content, width before + width line.cells⟩
        (line.statement.map Cell.char) = some (line.endsStatement following) := by
  have hcut : cells source = before ++ line.cells ++ following.flatMap Line.cells := by
    rw [h, Line.cells]
    simp only [List.append_assoc]
  have hends := endsStatement?_eq hcut
  rw [width_append] at hends
  have hempty : decide (width before + width line.cells = width before + width line.content) =
      line.terminator.isEmpty := by
    rw [Line.cells, width_append]
    cases hterminator : line.terminator with
    | nil => simp
    | cons t ts =>
      have := width_pos (List.cons_ne_nil t ts)
      rw [List.isEmpty_cons]
      exact decide_eq_false (by omega)
  rw [Encoded.completes?, hempty, hends, List.getLast?_map, Line.endsStatement]
  split
  · next htrue => rw [htrue, Bool.true_or]
  · next hfalse => rw [Bool.eq_false_iff.mpr hfalse, Bool.false_or]

theorem expression?_eq {following : List Line}
    (h : cells source = before ++ line.content ++ (line.terminator ++ following.flatMap Line.cells))
    (hhead : line.statement.head? = some c) (hc : c.isComment = false) :
    (encoded source).expression?
        ⟨width before, width before + width line.content, width before + width line.cells⟩
        (width before + width line.indent)
        (width before + width line.indent + width line.statement - 1) =
      some (if line.beginsStatement && !isSkippedForm (line.statement.map Cell.char)
          && line.isSingle && line.endsStatement following && !line.expression.isEmpty then
        some line.expression else none) := by
  obtain ⟨more, hstatement⟩ := List.head?_eq_some_iff.mp hhead
  obtain ⟨rest, hcontent, -⟩ := line.content_eq
  have hne : line.statement ≠ [] := by rw [hstatement]; exact List.cons_ne_nil _ _
  have hcells : cells source = before ++ line.indent ++ line.statement ++
      (rest ++ (line.terminator ++ following.flatMap Line.cells)) := by
    rw [h, hcontent]
    simp only [List.append_assoc]
  have hslice : slice? source (width before + width line.indent)
      (width before + width line.indent + width line.statement - 1 + 1) =
      some (line.statement.map Cell.char) := by
    have hpos := width_pos hne
    exact slice?_part hcells (width_append _ _).symm (by omega)
  have hbegins : (encoded source).beginsStatement? (width before + width line.indent) =
      some line.beginsStatement := by
    have hcut : cells source = before ++ line.indent ++ c :: (more ++
        (rest ++ (line.terminator ++ following.flatMap Line.cells))) := by
      rw [hcells, hstatement, List.append_assoc _ (c :: more), List.cons_append]
    rw [← width_append, beginsStatement?_eq hcut, Line.beginsStatement, hhead, Option.any_some, hc,
      Bool.not_false, Bool.true_and]
  have hskipped : skipped? (line.statement.map Cell.char) =
      some (isSkippedForm (line.statement.map Cell.char)) := by
    rw [skipped?, List.head?_map, hhead]
    rfl
  have hsingle : (encoded source).hasBoundary (width before + width line.indent)
      (width before + width line.indent + width line.statement - 1) = !line.isSingle := by
    rw [← width_append, hasBoundary_eq hcells hne, Line.isSingle, Bool.not_not]
  simp only [Encoded.expression?, show (encoded source).text = source from rfl, hslice, hbegins,
    hskipped, hsingle, completes?_eq h, Option.bind_eq_bind, Option.bind_some]
  rw [← Line.expression]
  cases line.beginsStatement <;> cases isSkippedForm (line.statement.map Cell.char) <;>
    cases line.isSingle <;> cases line.endsStatement following <;>
    cases line.expression.isEmpty <;> rfl

end Line

/-! ## Lines -/

theorem lineContent_map_char (piece : List Cell) :
    lineContent (piece.map Cell.char) = (Line.ofPiece piece).content.map Cell.char := by
  unfold Line.ofPiece
  split
  · next feed ret before h =>
    have e : piece = before.reverse ++ [ret] ++ [feed] := by
      rw [← List.reverse_reverse piece, h]
      simp
    rw [e, lineContent]
    by_cases hfeed : feed.char = '\n'
    · by_cases hret : ret.char = '\r'
      · simp [hfeed, hret]
      · simp [hfeed, hret]
    · simp [hfeed]
  · next feed h =>
    have e : piece = [feed] := by
      rw [← List.reverse_reverse piece, h]
      rfl
    rw [e, lineContent]
    by_cases hfeed : feed.char = '\n' <;> simp [hfeed]
  · next h =>
    obtain rfl : piece = [] := List.reverse_eq_nil_iff.mp h
    rfl

section Lines

variable {source : List Char} {earlier later : List (List Cell)} {piece : List Cell}

/-- A line that nothing ends is the last one. -/
theorem later_eq_nil (h : cellLines source = earlier ++ piece :: later)
    (hterminator : (Line.ofPiece piece).terminator = []) : later = [] := by
  by_contra hne
  have hcut := cut_cellLines source
  rw [h] at hcut
  exact Line.terminator_ne_nil hcut hne hterminator

theorem depthAt_eq_zero (h : cellLines source = earlier ++ piece :: later) :
    (decide ((encoded source).depthAt earlier.length = 0)
      && decide ((encoded source).depthAt (earlier.length + 1) = 0)) =
      (Line.ofPiece piece).isTopLevel := by
  have hpiece : (cellLines source)[earlier.length]? = some piece := by rw [h]; simp
  have hne : piece ≠ [] := (cut_cellLines source).ne_nil (List.mem_of_getElem? hpiece)
  obtain ⟨first, hfirst⟩ := Option.isSome_iff_exists.mp (List.isSome_head?.mpr hne)
  obtain ⟨last, hlast⟩ := Option.isSome_iff_exists.mp (List.getLast?_isSome.mpr hne)
  rw [depthAt_encoded, depthAt_encoded, lineDepths_start hpiece, lineDepths_end hpiece,
    Line.isTopLevel, Line.cells_ofPiece, hfirst, hlast]
  rfl

theorem standsFree_eq (h : cellLines source = earlier ++ piece :: later) (next : Nat) :
    (encoded source).standsFree earlier.length
        ⟨width earlier.flatten,
          width earlier.flatten + width (Line.ofPiece piece).content, next⟩ =
      ((Line.ofPiece piece).isTopLevel && earlier.flatten.getLast?.all Cell.isCode
        && (Line.ofPiece piece).terminator.head?.all Cell.isCode) := by
  have hcells := cells_of_piece h
  have hstart : (decide (width earlier.flatten = 0)
      || (encoded source).isCode (width earlier.flatten - 1)) =
      earlier.flatten.getLast?.all Cell.isCode := by
    cases hbefore : earlier.flatten with
    | nil => rfl
    | cons c before =>
      have hne : c :: before ≠ [] := List.cons_ne_nil _ _
      have hpos := width_pos hne
      rw [hbefore, List.append_assoc] at hcells
      rw [decide_eq_false (by omega), Bool.false_or, Encoded.isCode,
        getElem?_width_sub_one uniform_isCode hcells hne]
      cases (c :: before).getLast? <;> rfl
  have hstop : (decide (utf8Length source ≤
        width earlier.flatten + width (Line.ofPiece piece).content)
      || (encoded source).isCode (width earlier.flatten + width (Line.ofPiece piece).content)) =
      (Line.ofPiece piece).terminator.head?.all Cell.isCode := by
    rw [← width_cells, hcells, ← width_append]
    cases hterminator : (Line.ofPiece piece).terminator with
    | nil =>
      rw [later_eq_nil h hterminator, decide_eq_true (by simp)]
      rfl
    | cons c rest =>
      have hpos := width_pos (List.cons_ne_nil c rest)
      rw [hterminator] at hcells
      rw [decide_eq_false (by simp only [width_append]; omega), Bool.false_or, Encoded.isCode,
        getElem?_width uniform_isCode hcells]
      rfl
  rw [Encoded.standsFree, depthAt_eq_zero h, hstart]
  exact congrArg _ hstop

theorem captured?_eq (h : cellLines source = earlier ++ piece :: later) :
    (encoded source).captured? earlier.length
        ⟨width earlier.flatten, width earlier.flatten + width (Line.ofPiece piece).content,
          width earlier.flatten + width (Line.ofPiece piece).cells⟩ =
      some (((Line.ofPiece piece).expression? (earlier.flatten.getLast?.all Cell.isCode)
        (later.map Line.ofPiece)).map
          (width earlier.flatten + width (Line.ofPiece piece).indent, ·)) := by
  have hcells := cells_of_piece h
  have hfree := standsFree_eq h (width earlier.flatten + width (Line.ofPiece piece).cells)
  have hextent := extent?_eq hcells (width earlier.flatten + width (Line.ofPiece piece).cells)
  rw [← flatMap_cells_ofPiece later] at hcells
  generalize Line.ofPiece piece = line at *
  generalize earlier.flatten.getLast?.all Cell.isCode = fromCode at *
  simp only [Encoded.captured?, hfree, hextent, Option.bind_eq_bind, Option.bind_some]
  have hline : line.expression? fromCode (later.map Line.ofPiece) =
      if (line.isTopLevel && fromCode && line.terminator.head?.all Cell.isCode) then
        if line.beginsStatement && !isSkippedForm (line.statement.map Cell.char)
            && line.isSingle && line.endsStatement (later.map Line.ofPiece)
            && !line.expression.isEmpty then
          some line.expression else none
      else none := by
    rw [Line.expression?, ← Line.expression]
    cases line.isTopLevel && fromCode && line.terminator.head?.all Cell.isCode <;> rfl
  rw [hline]
  cases line.isTopLevel && fromCode && line.terminator.head?.all Cell.isCode with
  | false => rfl
  | true =>
    cases hany : line.statement.head?.any (!·.isComment) with
    | false =>
      have hbegins : line.beginsStatement = false := by
        rw [Line.beginsStatement]
        cases hhead : line.statement.head? with
        | none => rfl
        | some c =>
          rw [hhead, Option.any_some] at hany
          rw [Option.any_some, hany, Bool.false_and]
      rw [hbegins]
      rfl
    | true =>
      obtain ⟨c, hhead, hc⟩ : ∃ c, line.statement.head? = some c ∧ c.isComment = false := by
        cases hhead : line.statement.head? with
        | none => rw [hhead] at hany; cases hany
        | some c =>
          rw [hhead, Option.any_some] at hany
          exact ⟨c, rfl, by simpa using hany⟩
      have hexpression := expression?_eq hcells hhead hc
      simp only [Bool.not_true, Bool.false_eq_true, if_false, if_true, hexpression,
        Option.bind_some]
      rfl

theorem instrumentLine?_eq (h : cellLines source = earlier ++ piece :: later) :
    (encoded source).instrumentLine? earlier.length
        ⟨width earlier.flatten, width earlier.flatten + width (Line.ofPiece piece).content,
          width earlier.flatten + width piece⟩ =
      some (instrumentLine (earlier.length + 1) (earlier.flatten.getLast?.all Cell.isCode)
        (Line.ofPiece piece) (later.map Line.ofPiece)) := by
  have hcells := cells_of_piece h
  have hcaptured := captured?_eq h
  have hwidth : width piece = width (Line.ofPiece piece).cells := by rw [Line.cells_ofPiece]
  rw [hwidth]
  clear hwidth
  generalize Line.ofPiece piece = line at *
  have hcontent :
      slice? source (width earlier.flatten) (width earlier.flatten + width line.content) =
        some (line.content.map Cell.char) := slice?_part hcells rfl rfl
  have hterminator : slice? source (width earlier.flatten + width line.content)
      (width earlier.flatten + width line.cells) = some (line.terminator.map Cell.char) := by
    have hcut : cells source =
        earlier.flatten ++ line.content ++ line.terminator ++ later.flatten := by
      rw [hcells, List.append_assoc _ line.terminator]
    exact slice?_part hcut (width_append _ _).symm
      (by rw [Line.cells, width_append, Nat.add_assoc])
  simp only [Encoded.instrumentLine?, hcaptured, show (encoded source).text = source from rfl,
    hterminator, Option.bind_eq_bind, Option.bind_some]
  cases hexpression : line.expression? (earlier.flatten.getLast?.all Cell.isCode)
      (later.map Line.ofPiece) with
  | none =>
    simp only [Option.map_none, hcontent, Option.bind_some]
    rw [instrumentLine, hexpression]
    dsimp only
    rw [Line.text, Line.cells, List.map_append]
    rfl
  | some expression =>
    obtain ⟨rest, hrest, -⟩ := line.content_eq
    have hindent : slice? source (width earlier.flatten)
        (width earlier.flatten + width line.indent) = some (line.indent.map Cell.char) := by
      have hcut : cells source = earlier.flatten ++ line.indent ++
          (line.statement ++ rest ++ (line.terminator ++ later.flatten)) := by
        rw [hcells, hrest]
        simp only [List.append_assoc]
      exact slice?_part hcut rfl rfl
    simp only [Option.map_some, hindent, Option.bind_some]
    rw [instrumentLine, hexpression]
    rfl

theorem instrumentFrom?_eq (h : cellLines source = earlier ++ later) :
    (encoded source).instrumentFrom? earlier.length
        (spansFrom (width earlier.flatten) (later.map (List.map Cell.char))) =
      some (instrumentFrom (earlier.length + 1) (earlier.flatten.getLast?.all Cell.isCode)
        (later.map Line.ofPiece)) := by
  induction later generalizing earlier with
  | nil => rfl
  | cons piece later ih =>
    have hcut : cellLines source = earlier ++ [piece] ++ later := by rw [h]; simp
    have hnext := ih hcut
    have hlast : (earlier ++ [piece]).flatten.getLast?.all Cell.isCode =
        (Line.ofPiece piece).cells.getLast?.all Cell.isCode := by
      have hne : piece ≠ [] := (cut_cellLines source).ne_nil (by rw [h]; simp)
      rw [List.flatten_append, List.flatten_singleton, List.getLast?_append_of_ne_nil _ hne,
        Line.cells_ofPiece]
    rw [hlast, List.flatten_append, List.flatten_singleton, width_append, List.length_append,
      List.length_singleton] at hnext
    have hline := instrumentLine?_eq h
    rw [List.map_cons, spansFrom, Encoded.instrumentFrom?, lineContent_map_char]
    have hwidth : utf8Length (piece.map Cell.char) = width piece := rfl
    have hcontent : utf8Length ((Line.ofPiece piece).content.map Cell.char) =
        width (Line.ofPiece piece).content := rfl
    simp only [hwidth, hcontent, hline, hnext, Option.bind_eq_bind, Option.bind_some]
    rfl

end Lines

theorem instrument?_eq (source : List Char) : instrument? source = some (instrument source) := by
  have hlines : physicalLines source = (cellLines source).map (List.map Cell.char) := by
    rw [← map_text_lines, lines_cells, List.map_map]
    exact List.map_congr_left fun piece _ => text_ofPiece piece
  have hcut : cellLines source = [] ++ cellLines source := rfl
  have h := instrumentFrom?_eq hcut
  rw [List.length_nil, List.flatten_nil, width_nil] at h
  have htext := newlines_instrument source
  unfold instrument at htext
  simp only [instrument?, encode?_eq, Option.bind_eq_bind, Option.bind_some, hlines, h]
  exact if_pos htext

end SnippetRunner.Script
