import SnippetRunner.Script.Transform
import SnippetRunner.Proofs.Script.ReturnedLines

/-
  Instrumenting a script and returning its last expression, twice. The second time no line is
  captured and nothing is returned but at a detached semicolon, one that opens a line after a
  closing parenthesis (`instrumentReturning_stable`). There the second pass may find a statement
  that the first did not see, for a semicolon ends a statement behind the inserted word and not
  behind a call over several lines.
-/
namespace SnippetRunner.Script

open SnippetRunner.Text SnippetRunner.Source

/-- The script with its expressions reported and its value returned. -/
def instrumentReturning (source : List Char) : List Char :=
  (returnLast (instrument source).text).text

theorem prepare_instrumented (script : List Char) :
    (prepare script).instrumented = instrumentReturning (normalize script) := by
  rw [prepare, instrumentReturning]

theorem instrumentFrom_of_not_captured {number : Nat} {fromCode : Bool} {ls : List Line}
    (h : ∀ k, ¬CapturesLine fromCode ls k) :
    (instrumentFrom number fromCode ls).flatMap InstrumentedLine.text = ls.flatMap Line.text := by
  induction ls generalizing number fromCode with
  | nil => rfl
  | cons line following ih =>
    have hnone : line.expression? fromCode following = none := by
      by_contra hne
      obtain ⟨e, he⟩ := Option.ne_none_iff_exists'.mp hne
      exact h 0 (Line.expression?_eq_some_iff.mp he).1
    rw [instrumentFrom, List.flatMap_cons, List.flatMap_cons, ih fun k => h (k + 1),
      instrumentLine, hnone]

/-- A script without captured lines stays as it is. -/
theorem instrument_text_of_not_captured {source : List Char}
    (h : ∀ k e, (k + 1, e) ∉ (instrument source).captures) : (instrument source).text = source := by
  have hnot (k : Nat) : ¬CapturesLine true (lines (cells source)) k := by
    rw [← mem_captures_iff_capturesLine, not_exists]
    exact h k
  have htext : (instrument source).text = (lines (cells source)).flatMap Line.text := by
    unfold instrument
    exact instrumentFrom_of_not_captured hnot
  have hchars := congrArg (List.map Cell.char) (flatMap_cells_lines (cells source))
  rw [List.map_flatMap, map_char_cells] at hchars
  rw [htext]
  exact hchars

/-- A script in which nothing is returned stays as it is. -/
theorem returnLast_text_of_none {source : List Char} (h : (returnLast source).line = none) :
    (returnLast source).text = source := by
  rcases returnLast_cases source with ⟨s, -, -, e⟩ | e
  · rw [e] at h
    cases h
  · rw [e]

/-- What the second pass captures stands at a detached semicolon of the script. -/
theorem atDetachedSemicolon_of_captured_again {source : List Char} {k : Nat}
    (h : ∃ e, (k + 1, e) ∈ (instrument (instrumentReturning source)).captures) :
    atDetachedSemicolon source k = true := by
  obtain ⟨text, htext⟩ : ∃ text, text = (instrument source).text := ⟨_, rfl⟩
  rw [mem_captures_iff_capturesLine, instrumentReturning, ← htext] at h
  rcases capturesLine_of_returnLast h with hfirst | hdetached
  · rw [htext] at hfirst
    exact atDetachedSemicolon_of_recaptured hfirst
  · rw [htext] at hdetached
    exact atDetachedSemicolon_of_instrument hdetached

/-- What the second pass returns stands at a detached semicolon of the script. -/
theorem atDetachedSemicolon_of_returned_again {source : List Char} {number : Nat}
    (h : (returnLast (instrumentReturning source)).line = some number) :
    ∃ k, number = k + 1 ∧ atDetachedSemicolon source k = true := by
  rw [instrumentReturning] at h
  obtain ⟨hpos, -⟩ := line_of_returnLast h
  obtain ⟨k, rfl⟩ : ∃ k, number = k + 1 := ⟨number - 1, by omega⟩
  exact ⟨k, rfl, atDetachedSemicolon_of_instrument (atDetachedSemicolon_of_rereturned h)⟩

/-- Instrumenting and returning again leaves the text as it is, unless a line at a detached
semicolon is captured or returned again. -/
theorem instrumentReturning_stable (source : List Char) :
    instrumentReturning (instrumentReturning source) = instrumentReturning source ∨
      ∃ k, atDetachedSemicolon source k = true ∧
        ((∃ e, (k + 1, e) ∈ (instrument (instrumentReturning source)).captures) ∨
          (returnLast (instrumentReturning source)).line = some (k + 1)) := by
  by_cases hcaptured : ∃ k e, (k + 1, e) ∈ (instrument (instrumentReturning source)).captures
  · obtain ⟨k, e, he⟩ := hcaptured
    exact Or.inr ⟨k, atDetachedSemicolon_of_captured_again ⟨e, he⟩, Or.inl ⟨e, he⟩⟩
  have hkept : (instrument (instrumentReturning source)).text = instrumentReturning source :=
    instrument_text_of_not_captured fun k e he => hcaptured ⟨k, e, he⟩
  cases hline : (returnLast (instrumentReturning source)).line with
  | none =>
    left
    rw [instrumentReturning, hkept]
    exact returnLast_text_of_none hline
  | some number =>
    obtain ⟨k, rfl, hdetached⟩ := atDetachedSemicolon_of_returned_again hline
    exact Or.inr ⟨k, hdetached, Or.inr rfl⟩

/-- A semicolon after a call over two lines is returned first, and what follows it second. -/
theorem detached_semicolon_returned_twice :
    instrumentReturning "f(\n)\n;[1,\n2]".toList = "f(\n)\nreturn ;[1,\n2];".toList ∧
      instrumentReturning (instrumentReturning "f(\n)\n;[1,\n2]".toList) ≠
        instrumentReturning "f(\n)\n;[1,\n2]".toList := by decide

end SnippetRunner.Script
