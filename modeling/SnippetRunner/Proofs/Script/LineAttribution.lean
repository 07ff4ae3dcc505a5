import SnippetRunner.Proofs.Script.Lines
import SnippetRunner.Proofs.Source.Lexing

/-
  The capture pass keeps every line at its number. `instrument_attributes_lines` says what becomes
  of each: it stays as it is and has no entry among the captures, or it becomes its indentation,
  the call that reports its expression with its number, and its own line end. No line that has an
  open bracket at its start or end is captured, nor one that begins in a string, a template or a
  block comment or that runs on in one into the next line. Two kinds of captured line break off
  inside one all the same: a last line without a line end, and a line that leaves a string open in
  front of a line feed, since the line feed ends the string.
-/
namespace SnippetRunner.Script

open SnippetRunner.Text SnippetRunner.Source

/-! ## Lines of the instrumented text -/

theorem newline_notMem_repr (n : Nat) : '\n' ∉ (Nat.repr n).toList := by
  intro h
  have hd : '\n'.isDigit = true := by
    refine Nat.isDigit_of_mem_toDigits (b := 10) (n := n) (by decide) (by decide) ?_
    simpa [Nat.repr] using h
  exact absurd hd (by decide)

theorem newline_notMem_captureCall {e : List Char} (number : Nat) (h : '\n' ∉ e) :
    '\n' ∉ captureCall e number := by
  have h1 : '\n' ∉ captureFunction := by decide
  have h2 : '\n' ∉ "(".toList := by decide
  have h3 : '\n' ∉ ", ".toList := by decide
  have h4 : '\n' ∉ ");".toList := by decide
  simp only [captureCall, List.mem_append, h1, h2, h, h3, newline_notMem_repr, h4, or_self,
    not_false_eq_true]

/-- The text of an instrumented line is some text without line ends, followed by the line's own
end. -/
theorem instrumentLine_text (number : Nat) (fromCode : Bool) {line : Line} (h : line.Shaped)
    (following : List Line) :
    ∃ shown, (instrumentLine number fromCode line following).text =
        shown ++ line.terminator.map Cell.char ∧
      '\n' ∉ shown ∧ (line.content ≠ [] → shown ≠ []) := by
  have hcontent : '\n' ∉ line.content.map Cell.char := by
    intro hm
    obtain ⟨c, hc, e⟩ := List.mem_map.mp hm
    exact h.content c hc e
  unfold instrumentLine
  split
  · next e he =>
    obtain ⟨hcap, rfl⟩ := Line.expression?_eq_some_iff.mp he
    obtain ⟨body, rest, heq, hbody, -⟩ := Line.saysOnly_expression hcap.nonempty
    have hindent : '\n' ∉ line.indent.map Cell.char := fun hm => hcontent (by
      rw [heq, List.map_append, List.map_append]
      exact List.mem_append_left _ (List.mem_append_left _ hm))
    have hexpr : '\n' ∉ line.expression := fun hm => hcontent (by
      rw [heq, List.map_append, List.map_append, hbody]
      exact List.mem_append_left _ (List.mem_append_right _ hm))
    refine ⟨_, rfl, ?_, fun _ => ?_⟩
    · rw [List.mem_append]
      exact not_or.mpr ⟨hindent, newline_notMem_captureCall number hexpr⟩
    · simp [captureCall]
  · exact ⟨line.content.map Cell.char, by simp [Line.text, Line.cells], hcontent, by simp⟩

theorem unmarked_of_notMem {s : List Char} (h : '\n' ∉ s) :
    ∀ c ∈ s, decide (c = '\n') = false := by
  rintro c hc
  exact decide_eq_false fun e => h (e ▸ hc)

theorem cut_instrumentFrom {pieces : List (List Cell)} (h : Cut (·.char = '\n') pieces)
    (number : Nat) (fromCode : Bool) :
    Cut (· = '\n')
      ((instrumentFrom number fromCode (pieces.map Line.ofPiece)).map InstrumentedLine.text) := by
  induction h generalizing number fromCode with
  | nil => exact .nil
  | @unclosed piece hne hu =>
    have hu : ∀ c ∈ piece, c.char ≠ '\n' := fun c hc => by simpa using hu c hc
    have hline := Line.ofPiece_unmarked hu
    have hshaped : (Line.ofPiece piece).Shaped := by rw [hline]; exact ⟨hu, Or.inl rfl⟩
    obtain ⟨shown, htext, hshown, hnonempty⟩ := instrumentLine_text number fromCode hshaped []
    have hterm : (Line.ofPiece piece).terminator = [] := by rw [hline]
    rw [hterm, List.map_nil, List.append_nil] at htext
    have hne' : shown ≠ [] := hnonempty (by rw [hline]; exact hne)
    simp only [List.map_cons, List.map_nil, instrumentFrom, htext]
    exact .unclosed hne' (unmarked_of_notMem hshown)
  | @closed init feed pieces hu hm _ ih =>
    have hu : ∀ c ∈ init, c.char ≠ '\n' := fun c hc => by simpa using hu c hc
    have hm : feed.char = '\n' := by simpa using hm
    have hcut : Cut (·.char = '\n') [init ++ [feed]] :=
      .closed (fun c hc => by simpa using hu c hc) (by simpa using hm) .nil
    have hshaped : (Line.ofPiece (init ++ [feed])).Shaped :=
      Line.shaped_ofPiece hcut (List.mem_cons_self ..)
    rw [List.map_cons, instrumentFrom, List.map_cons]
    obtain ⟨shown, htext, hshown, -⟩ :=
      instrumentLine_text number fromCode hshaped (pieces.map Line.ofPiece)
    rw [htext]
    rcases Line.ofPiece_feed init hm with e | ⟨before, ret, -, hr, e⟩
    · rw [show (Line.ofPiece (init ++ [feed])).terminator = [feed] by rw [e],
        List.map_singleton, hm]
      exact .closed (unmarked_of_notMem hshown) (by simp) (ih _ _)
    · rw [show (Line.ofPiece (init ++ [feed])).terminator = [ret, feed] by rw [e]]
      rw [show [ret, feed].map Cell.char = ['\r'] ++ ['\n'] by simp [hr, hm], ← List.append_assoc]
      refine .closed (fun c hc => ?_) (by simp) (ih _ _)
      rcases List.mem_append.mp hc with hc | hc
      · exact unmarked_of_notMem hshown c hc
      · simp [List.mem_singleton.mp hc]

/-- The instrumented lines are the physical lines of the instrumented text. -/
theorem physicalLines_instrument (source : List Char) :
    physicalLines (instrument source).text =
      (instrumentFrom 1 true (lines (cells source))).map InstrumentedLine.text := by
  have h := cut_instrumentFrom (cut_splitAfter (·.char = '\n') (cells source)) 1 true
  have hf := splitAfter_flatten h
  rw [← List.flatMap_def] at hf
  exact hf

theorem length_physicalLines_instrument (source : List Char) :
    (physicalLines (instrument source).text).length = (physicalLines source).length := by
  rw [physicalLines_instrument, List.length_map, length_instrumentFrom, ← map_text_lines,
    List.length_map]

theorem physicalLines_instrument_getElem? (source : List Char) (k : Nat) :
    (physicalLines (instrument source).text)[k]? = (lines (cells source))[k]?.map fun line =>
      (instrumentLine (k + 1) (codeBefore true (lines (cells source)) k) line
        ((lines (cells source)).drop (k + 1))).text := by
  rw [physicalLines_instrument, List.getElem?_map, instrumentFrom_getElem?, Option.map_map,
    Nat.add_comm 1 k]
  rfl

/-! ## Captures -/

theorem captured_instrumentLine (number : Nat) (fromCode : Bool) (line : Line)
    (following : List Line) :
    (instrumentLine number fromCode line following).captured =
      (line.expression? fromCode following).map fun e => (number, e) := by
  unfold instrumentLine
  split
  · next h => rw [h]; rfl
  · next h => rw [h]; rfl

theorem mem_captures_iff {source : List Char} {number : Nat} {e : List Char} :
    (number, e) ∈ (instrument source).captures ↔
      ∃ k line, (lines (cells source))[k]? = some line ∧ number = k + 1 ∧
        line.expression? (codeBefore true (lines (cells source)) k)
          ((lines (cells source)).drop (k + 1)) = some e := by
  unfold instrument
  dsimp only
  rw [List.mem_filterMap]
  constructor
  · rintro ⟨shown, hmem, hcap⟩
    obtain ⟨k, hk⟩ := List.mem_iff_getElem?.mp hmem
    rw [instrumentFrom_getElem?, Option.map_eq_some_iff] at hk
    obtain ⟨line, hline, rfl⟩ := hk
    rw [captured_instrumentLine, Option.map_eq_some_iff] at hcap
    obtain ⟨e', he', heq⟩ := hcap
    obtain ⟨rfl, rfl⟩ := Prod.mk.inj heq
    exact ⟨k, line, hline, Nat.add_comm 1 k, he'⟩
  · rintro ⟨k, line, hline, rfl, he⟩
    refine ⟨instrumentLine (1 + k) (codeBefore true (lines (cells source)) k) line
      ((lines (cells source)).drop (k + 1)), List.mem_of_getElem? (i := k) ?_, ?_⟩
    · rw [instrumentFrom_getElem?, hline, Option.map_some]
    · rw [captured_instrumentLine, he, Option.map_some, Nat.add_comm 1 k]

theorem le_of_mem_captured {number : Nat} {fromCode : Bool} {ls : List Line}
    {entry : Nat × List Char}
    (h : entry ∈ (instrumentFrom number fromCode ls).filterMap InstrumentedLine.captured) :
    number ≤ entry.1 := by
  obtain ⟨shown, hmem, hcap⟩ := List.mem_filterMap.mp h
  obtain ⟨k, hk⟩ := List.mem_iff_getElem?.mp hmem
  rw [instrumentFrom_getElem?, Option.map_eq_some_iff] at hk
  obtain ⟨line, -, rfl⟩ := hk
  rw [captured_instrumentLine, Option.map_eq_some_iff] at hcap
  obtain ⟨e, -, rfl⟩ := hcap
  exact Nat.le_add_right number k

theorem pairwise_captured (number : Nat) (fromCode : Bool) (ls : List Line) :
    (((instrumentFrom number fromCode ls).filterMap InstrumentedLine.captured).map
      Prod.fst).Pairwise (· < ·) := by
  induction ls generalizing number fromCode with
  | nil => exact .nil
  | cons line ls ih =>
    rw [instrumentFrom, List.filterMap_cons, captured_instrumentLine]
    cases line.expression? fromCode ls with
    | none => exact ih _ _
    | some e =>
      simp only [Option.map_some, List.map_cons]
      refine List.pairwise_cons.mpr ⟨fun j hj => ?_, ih _ _⟩
      obtain ⟨entry, hentry, rfl⟩ := List.mem_map.mp hj
      exact le_of_mem_captured hentry

/-! ## Where a captured line stands -/

/-- Where line `k` of a text begins. -/
def lineStart (source : List Char) (k : Nat) : Nat := ((physicalLines source).take k).flatten.length

theorem lineStart_eq (source : List Char) (k : Nat) :
    lineStart source k = ((cellLines source).take k).flatten.length := by
  have h : physicalLines source = (cellLines source).map (List.map Cell.char) := by
    rw [← map_text_lines, lines_cells, List.map_map]
    exact List.map_congr_left fun piece _ => text_ofPiece piece
  rw [lineStart, h, ← List.map_take, ← List.map_flatten, List.length_map]

theorem cellLines_eq_of_getElem? {source : List Char} {k : Nat} {piece : List Cell}
    (h : (cellLines source)[k]? = some piece) :
    cellLines source = (cellLines source).take k ++ piece :: (cellLines source).drop (k + 1) := by
  obtain ⟨hlt, rfl⟩ := List.getElem?_eq_some_iff.mp h
  rw [← List.drop_eq_getElem_cons hlt, List.take_append_drop]

theorem cells_eq_of_getElem? {source : List Char} {k : Nat} {piece : List Cell}
    (h : (cellLines source)[k]? = some piece) :
    cells source = ((cellLines source).take k).flatten ++
      (piece ++ ((cellLines source).drop (k + 1)).flatten) := by
  rw [← List.flatten_cons, ← List.flatten_append, ← cellLines_eq_of_getElem? h, flatten_cellLines]

theorem cells_of_piece {source : List Char} {earlier later : List (List Cell)} {piece : List Cell}
    (h : cellLines source = earlier ++ piece :: later) :
    cells source = earlier.flatten ++ (Line.ofPiece piece).content ++
      ((Line.ofPiece piece).terminator ++ later.flatten) := by
  have hpiece := Line.cells_ofPiece piece
  rw [Line.cells] at hpiece
  rw [← flatten_cellLines, h, List.flatten_append, List.flatten_cons]
  conv_lhs => rw [← hpiece]
  simp only [List.append_assoc]

theorem lineStart_succ {source : List Char} {k : Nat} {piece : List Cell}
    (h : (cellLines source)[k]? = some piece) :
    lineStart source (k + 1) = (((cellLines source).take k).flatten ++ piece).length := by
  rw [lineStart_eq, List.take_add_one, h, Option.toList_some, List.flatten_append,
    List.flatten_singleton]

/-- A line that follows a code line end begins in code. -/
theorem modeAt_lineStart {source : List Char} {k : Nat} {piece : List Cell}
    (h : (cellLines source)[k]? = some piece)
    (hcode : codeBefore true (lines (cells source)) k = true) :
    modeAt source (lineStart source k) = .code := by
  rw [lineStart_eq]
  refine modeAt_of_code (cells_eq_of_getElem? h) ?_
  cases k with
  | zero => rfl
  | succ k =>
    have hlt : k < (cellLines source).length := by
      have := (List.getElem?_eq_some_iff.mp h).1
      omega
    have hprev : (cellLines source)[k]? = some (cellLines source)[k] := List.getElem?_eq_getElem hlt
    rw [codeBefore, lines_cells, List.getElem?_map, hprev, Option.map_some, Option.all_some,
      Line.cells_ofPiece] at hcode
    obtain ⟨c, hc⟩ : ∃ c, ((cellLines source)[k]).getLast? = some c :=
      Option.isSome_iff_exists.mp
        (List.getLast?_isSome.mpr ((cut_cellLines source).ne_nil (List.mem_of_getElem? hprev)))
    rw [hc] at hcode
    rw [List.take_add_one, hprev, Option.toList_some, List.flatten_append, List.flatten_singleton,
      List.getLast?_append, hc]
    exact hcode

/-- After a line whose end begins in code the lexer is in code. -/
theorem modeAt_lineEnd {source : List Char} {k : Nat} {piece : List Cell}
    (h : (cellLines source)[k]? = some piece)
    (hne : (Line.ofPiece piece).terminator ≠ [])
    (hcode : (Line.ofPiece piece).terminator.head?.all Cell.isCode = true) :
    modeAt source (lineStart source (k + 1)) = .code := by
  have hsplit := cells_eq_of_getElem? h
  rw [lineStart_succ h]
  rw [← List.append_assoc] at hsplit
  have hcells := Line.cells_ofPiece piece
  rcases (shaped_of_mem_lines (List.mem_map_of_mem (List.mem_of_getElem? h))).terminator with
    ht | ⟨feed, hfeed, ht | ⟨ret, -, ht⟩⟩
  · exact absurd ht hne
  · refine modeAt_of_code hsplit ?_
    rw [Line.cells, ht] at hcells
    rw [ht] at hcode
    rw [← hcells, ← List.append_assoc, List.getLast?_concat]
    exact hcode
  · -- the lexer is in code after the carriage return, and the line feed leaves it there
    rw [Line.cells, ht] at hcells
    rw [ht] at hcode
    obtain ⟨content, rfl⟩ : ∃ content, piece = content ++ [ret, feed] := ⟨_, hcells.symm⟩
    have hret : cells source = (((cellLines source).take k).flatten ++ (content ++ [ret])) ++
        (feed :: ((cellLines source).drop (k + 1)).flatten) := by
      rw [hsplit]
      simp only [List.append_assoc, List.cons_append, List.nil_append]
    have hmode := modeAt_of_code hret (by
      rw [← List.append_assoc, List.getLast?_concat]
      exact hcode)
    rw [modeAt_length hret, List.map_cons, List.head?_cons, hfeed] at hmode
    rw [modeAt_length hsplit]
    have e : (((cellLines source).take k).flatten ++ (content ++ [ret, feed])).map Cell.char =
        (((cellLines source).take k).flatten ++ (content ++ [ret])).map Cell.char ++ ['\n'] := by
      simp only [List.map_append, List.map_cons, List.map_nil, hfeed, List.append_assoc,
        List.cons_append, List.nil_append]
    rw [e, Lexer.run_concat, Lexer.step_code hmode]
    exact hmode

/-! ## Attribution -/

/-- A mode inside a string, the text of a template or a block comment. The expressions of a template
are code. -/
def isInside : Mode → Bool
  | .code | .lineComment => false
  | _ => true

/-- A bracket is open where line `k` begins or where it ends. -/
def HasOpenBracket (source : List Char) (k : Nat) : Prop :=
  (lineDepths source)[k]? ≠ some 0 ∨ (lineDepths source)[k + 1]? ≠ some 0

def BeginsInside (source : List Char) (k : Nat) : Prop :=
  isInside (modeAt source (lineStart source k)) = true

/-- The mode in which the lexer is where line `k` ends, in front of its line end. -/
def endMode? (source : List Char) (k : Nat) : Option Mode :=
  (lines (cells source))[k]?.map fun line =>
    modeAt source (lineStart source k + line.content.length)

def EndsInside (source : List Char) (k : Nat) : Prop :=
  (endMode? source k).any isInside = true

/-- Line `k` has a line end. -/
def HasLineEnd (source : List Char) (k : Nat) : Prop :=
  ∃ line, (physicalLines source)[k]? = some line ∧ line.getLast? = some '\n'

/-- Line `k` ends in a string, and its line end is a lone line feed that no backslash escapes. The
lexer ends the string there. -/
structure LeavesStringOpen (source : List Char) (k : Nat) : Prop where
  unclosed : ∃ quote, endMode? source k = some (.quoted quote)
  feed : ∃ line, (lines (cells source))[k]? = some line ∧ line.terminator.map Cell.char = ['\n']

/-- No bracket is open around line `k`, it begins in no string, template or block comment, and
none runs on from it into the next line. If it has a line end, it ends in none of them either,
unless it leaves a string open. -/
structure StandsFree (source : List Char) (k : Nat) : Prop where
  brackets : ¬HasOpenBracket source k
  begins : ¬BeginsInside source k
  runsOn : HasLineEnd source k → ¬BeginsInside source (k + 1)
  ends : HasLineEnd source k → EndsInside source k → LeavesStringOpen source k

/-- Line `k`, which has number `k + 1`, stays as it is, and nothing is captured on it. -/
structure Keeps (source : List Char) (k : Nat) : Prop where
  text : (physicalLines (instrument source).text)[k]? = (physicalLines source)[k]?
  captures : ∀ e, (k + 1, e) ∉ (instrument source).captures

/-- Line `k` becomes the call that reports all it says with its number, between its own
indentation and its own line end. -/
structure Reports (source : List Char) (k : Nat) (line : Line) (e : List Char) : Prop where
  atLine : (lines (cells source))[k]? = some line
  content : line.SaysOnly e
  captures : (k + 1, e) ∈ (instrument source).captures
  text : (physicalLines (instrument source).text)[k]? = some (line.indent.map Cell.char
    ++ captureCall e (k + 1) ++ line.terminator.map Cell.char)

theorem keeps_of_not_captured {source : List Char} {k : Nat}
    (h : ∀ line, (lines (cells source))[k]? = some line →
      line.expression? (codeBefore true (lines (cells source)) k)
        ((lines (cells source)).drop (k + 1)) = none) : Keeps source k where
  text := by
    rw [physicalLines_instrument_getElem?, ← map_text_lines, List.getElem?_map]
    cases hl : (lines (cells source))[k]? with
    | none => rfl
    | some line => simp [instrumentLine, h line hl]
  captures := by
    intro e he
    obtain ⟨j, line, hline, hj, hcap⟩ := mem_captures_iff.mp he
    obtain rfl : k = j := by omega
    rw [h line hline] at hcap
    cases hcap

theorem keeps_of_piece {source : List Char} {earlier later : List (List Cell)} {piece : List Cell}
    (hpieces : cellLines source = earlier ++ piece :: later)
    (h : ∀ fromCode, ¬(Line.ofPiece piece).IsCaptured fromCode (later.map Line.ofPiece)) :
    Keeps source earlier.length := by
  have hlines : lines (cells source) =
      earlier.map Line.ofPiece ++ Line.ofPiece piece :: later.map Line.ofPiece := by
    rw [lines_cells, hpieces, List.map_append, List.map_cons]
  refine keeps_of_not_captured fun line hline => ?_
  rw [hlines, List.getElem?_append_right (by simp), List.length_map, Nat.sub_self] at hline
  obtain rfl := Option.some.inj hline
  refine Option.eq_none_iff_forall_ne_some.mpr fun e he => ?_
  have hfollowing : (lines (cells source)).drop (earlier.length + 1) = later.map Line.ofPiece := by
    rw [hlines, List.drop_append, List.length_map]
    simp
  have hcaptured := (Line.expression?_eq_some_iff.mp he).1
  rw [hfollowing] at hcaptured
  exact h _ hcaptured

theorem reports_of_captured {source : List Char} {k : Nat} {line : Line} {e : List Char}
    (hline : (lines (cells source))[k]? = some line)
    (h : line.expression? (codeBefore true (lines (cells source)) k)
      ((lines (cells source)).drop (k + 1)) = some e) : Reports source k line e where
  atLine := hline
  content := by
    obtain ⟨hcap, rfl⟩ := Line.expression?_eq_some_iff.mp h
    exact Line.saysOnly_expression hcap.nonempty
  captures := mem_captures_iff.mpr ⟨k, line, hline, rfl, h⟩
  text := by
    rw [physicalLines_instrument_getElem?, hline, Option.map_some, instrumentLine, h]

/-- In front of a line end that begins in code the lexer is in code, or the line end is a line feed
that ends a line comment or a string. -/
theorem mode_of_lineEnd_code {source : List Char} {k : Nat} {line : Line}
    (hline : (lines (cells source))[k]? = some line) (hne : line.terminator ≠ [])
    (hcode : line.terminator.head?.all Cell.isCode = true) :
    ∀ mode ∈ endMode? source k, mode = .code ∨ line.terminator.map Cell.char = ['\n'] ∧
      (mode = .lineComment ∨ ∃ quote, mode = .quoted quote) := by
  intro mode hmode
  rw [endMode?, hline, Option.map_some] at hmode
  obtain rfl := Option.some.inj hmode
  have hshaped := shaped_of_mem_lines (List.mem_of_getElem? hline)
  rw [lines_cells, List.getElem?_map, Option.map_eq_some_iff] at hline
  obtain ⟨piece, hpiece, rfl⟩ := hline
  have hplace : lineStart source k + (Line.ofPiece piece).content.length =
      (((cellLines source).take k).flatten ++ (Line.ofPiece piece).content).length := by
    rw [lineStart_eq, List.length_append]
  have hsplit := cells_of_piece (cellLines_eq_of_getElem? hpiece)
  rw [hplace]
  rcases hshaped.terminator with ht | ⟨feed, hfeed, ht | ⟨ret, hret, ht⟩⟩
  · exact absurd ht hne
  · rw [ht] at hsplit hcode ⊢
    refine (modeAt_before_code hsplit hcode).imp_right fun hends => ⟨?_, hends.2⟩
    rw [List.map_singleton, hfeed]
  · -- a carriage return ends neither
    rw [ht] at hsplit hcode
    refine Or.inl ((modeAt_before_code hsplit hcode).resolve_right fun hends => ?_)
    rw [hret] at hends
    cases hends.1

theorem HasLineEnd.exists_feed {source : List Char} {k : Nat} {piece : List Cell}
    (h : HasLineEnd source k) (hpiece : (cellLines source)[k]? = some piece) :
    ∃ init feed, piece = init ++ [feed] ∧ feed.char = '\n' := by
  obtain ⟨text, htext, hlast⟩ := h
  rw [← map_text_lines, List.getElem?_map, lines_cells, List.getElem?_map, hpiece] at htext
  obtain rfl := Option.some.inj htext
  rw [text_ofPiece, List.getLast?_map, Option.map_eq_some_iff] at hlast
  obtain ⟨feed, hfeed, hchar⟩ := hlast
  obtain ⟨init, rfl⟩ := List.getLast?_eq_some_iff.mp hfeed
  exact ⟨init, feed, rfl, hchar⟩

theorem HasLineEnd.terminator_ne_nil {source : List Char} {k : Nat} {piece : List Cell}
    (h : HasLineEnd source k) (hpiece : (cellLines source)[k]? = some piece) :
    (Line.ofPiece piece).terminator ≠ [] := by
  obtain ⟨init, feed, rfl, hchar⟩ := h.exists_feed hpiece
  rcases Line.ofPiece_feed init hchar with e | ⟨_, _, -, -, e⟩ <;> rw [e] <;>
    exact List.cons_ne_nil _ _

theorem not_hasOpenBracket_of_topLevel {source : List Char} {k : Nat} {piece : List Cell}
    (hpiece : (cellLines source)[k]? = some piece)
    (htop : (Line.ofPiece piece).isTopLevel = true) : ¬HasOpenBracket source k := by
  have hne : piece ≠ [] := (cut_cellLines source).ne_nil (List.mem_of_getElem? hpiece)
  obtain ⟨first, hfirst⟩ := Option.isSome_iff_exists.mp (List.isSome_head?.mpr hne)
  obtain ⟨last, hlast⟩ := Option.isSome_iff_exists.mp (List.getLast?_isSome.mpr hne)
  rw [Line.isTopLevel, Line.cells_ofPiece, hfirst, hlast] at htop
  simp only [Option.all_some, Bool.and_eq_true, decide_eq_true_eq] at htop
  rw [HasOpenBracket, lineDepths_start hpiece, lineDepths_end hpiece, hfirst, hlast]
  simp [htop.1, htop.2]

theorem stands_free_of_captured {source : List Char} {k : Nat} {line : Line}
    (hline : (lines (cells source))[k]? = some line)
    (h : line.IsCaptured (codeBefore true (lines (cells source)) k)
      ((lines (cells source)).drop (k + 1))) : StandsFree source k := by
  have hat := hline
  rw [lines_cells, List.getElem?_map, Option.map_eq_some_iff] at hline
  obtain ⟨piece, hpiece, rfl⟩ := hline
  refine ⟨not_hasOpenBracket_of_topLevel hpiece h.topLevel, ?begins, fun hends => ?runsOn,
    fun hends hinside => ?ends⟩
  case begins =>
    rw [BeginsInside, modeAt_lineStart hpiece h.fromCode]
    simp [isInside]
  case runsOn =>
    rw [BeginsInside, modeAt_lineEnd hpiece (hends.terminator_ne_nil hpiece) h.endsInCode]
    simp [isInside]
  case ends =>
    obtain ⟨mode, hmode, hinside⟩ := (Option.any_eq_true ..).mp hinside
    rcases mode_of_lineEnd_code hat (hends.terminator_ne_nil hpiece) h.endsInCode mode hmode with
      rfl | ⟨hfeed, rfl | ⟨quote, rfl⟩⟩
    · cases hinside
    · cases hinside
    · exact ⟨⟨quote, hmode⟩, _, hat, hfeed⟩

/-- The instrumented text has the lines of the source, and its captures are entered by ascending
line number. Every line either stays as it is, or it is captured and reports itself; then no
bracket is open where it begins or ends, it does not begin inside a string, a template or a block
comment, none of these runs on from it into the next line, and, if it has a line end, it ends
inside none of them but a string that it leaves open in front of a line feed. -/
theorem instrument_attributes_lines (source : List Char) :
    (physicalLines (instrument source).text).length = (physicalLines source).length ∧
      ((instrument source).captures.map Prod.fst).Pairwise (· < ·) ∧
      (lines (cells source)).map Line.text = physicalLines source ∧
      ∀ k, Keeps source k ∨
        (k < (physicalLines source).length ∧ (∃ line e, Reports source k line e) ∧
          StandsFree source k) := by
  refine ⟨length_physicalLines_instrument source, pairwise_captured _ _ _, map_text_lines source,
    fun k => ?_⟩
  by_cases h : ∀ line, (lines (cells source))[k]? = some line →
      line.expression? (codeBefore true (lines (cells source)) k)
        ((lines (cells source)).drop (k + 1)) = none
  · exact Or.inl (keeps_of_not_captured h)
  · right
    push Not at h
    obtain ⟨line, hline, hsome⟩ := h
    obtain ⟨e, he⟩ := Option.ne_none_iff_exists'.mp hsome
    refine ⟨?_, ⟨line, e, reports_of_captured hline he⟩,
      stands_free_of_captured hline (Line.expression?_eq_some_iff.mp he).1⟩
    rw [← map_text_lines, List.length_map]
    exact (List.getElem?_eq_some_iff.mp hline).1

/-- A last line that breaks off inside a template is captured all the same, and so is a line that
leaves a string open in front of a line feed. -/
theorem unclosed_template_and_string_captured :
    (EndsInside "\x60abc".toList 0 ∧ ¬Keeps "\x60abc".toList 0) ∧
      (EndsInside "'abc\nfoo".toList 0 ∧ ¬Keeps "'abc\nfoo".toList 0) := by
  refine ⟨⟨by unfold EndsInside; decide, fun h => ?_⟩, by unfold EndsInside; decide, fun h => ?_⟩
  · exact h.captures "\x60abc".toList (by decide)
  · exact h.captures "'abc".toList (by decide)

end SnippetRunner.Script
