import SnippetRunner.Proofs.Script.ReservedWords

/-
  Two tests tell what is no expression. The one that the last statement must pass knows blocks and
  asynchronous functions by their beginning; the one that a line must pass asks for its last
  character instead, so it lets them through where they end on the line on which they begin. In
  everything else the first test refuses no more than the second.
-/
namespace SnippetRunner.Script

open SnippetRunner.Text SnippetRunner.Source

/-- A text that begins as a block or as an asynchronous function. -/
def OpensBlockOrAsync (text : List Char) : Prop :=
  text.head? = some '\x7b' ∨ "async function".toList <+: text

/-! ## The tests on a text -/

theorem isStatementForm_eq_true_iff {text : List Char} :
    isStatementForm text = true ↔
      opensWithKeyword text = true ∨ text.head?.any isClosing = true ∨ OpensBlockOrAsync text := by
  have hhead : text.head?.any (fun c => isClosing c || c = '\x7b') = true ↔
      text.head?.any isClosing = true ∨ text.head? = some '\x7b' := by
    cases text with
    | nil => simp
    | cons c text => simp
  have hasync : (dropStart? "async function".toList text).isSome = true ↔
      "async function".toList <+: text := by
    simp only [Option.isSome_iff_exists, dropStart?_eq_some_iff]
    exact exists_congr fun rest => eq_comm
  rw [isStatementForm, Bool.or_eq_true, Bool.or_eq_true, hhead, hasync, OpensBlockOrAsync]
  simp only [or_assoc]

/-- What a line passes over covers the keywords and the closing brackets. -/
theorem not_opensWithKeyword_of_not_isSkippedForm {text : List Char}
    (h : isSkippedForm text = false) : opensWithKeyword text = false := by
  simp only [isSkippedForm, Bool.or_eq_false_iff] at h
  exact h.1.1.1.1.1

theorem head?_not_closing_of_not_isSkippedForm {text : List Char}
    (h : isSkippedForm text = false) : text.head?.any isClosing = false := by
  simp only [isSkippedForm, Bool.or_eq_false_iff] at h
  have hhead := h.1.1.1.2
  cases text with
  | nil => rfl
  | cons c text =>
    simp only [List.head?_cons, Option.any_some, Bool.or_eq_false_iff] at hhead ⊢
    exact hhead.1.1.1

theorem opensBlockOrAsync_of_isStatementForm {text : List Char}
    (hskipped : isSkippedForm text = false) (h : isStatementForm text = true) :
    OpensBlockOrAsync text := by
  rcases isStatementForm_eq_true_iff.mp h with hkeyword | hclosing | hopens
  · rw [not_opensWithKeyword_of_not_isSkippedForm hskipped] at hkeyword
    cases hkeyword
  · rw [head?_not_closing_of_not_isSkippedForm hskipped] at hclosing
    cases hclosing
  · exact hopens

/-- Neither a brace nor the word `async` is the beginning of a listed keyword. -/
theorem not_opensWithKeyword_of_opensBlockOrAsync {text : List Char}
    (h : OpensBlockOrAsync text) : opensWithKeyword text = false := by
  rcases h with hhead | ⟨rest, rfl⟩
  · obtain ⟨rest, rfl⟩ := List.head?_eq_some_iff.mp hhead
    rfl
  · rfl

/-- Among the texts that begin as a block or as an asynchronous function, those are passed over
that end with a brace. -/
theorem isSkippedForm_of_opensBlockOrAsync {text : List Char} (h : OpensBlockOrAsync text) :
    isSkippedForm text = decide (text.getLast? = some '\x7b') := by
  rw [isSkippedForm, not_opensWithKeyword_of_opensBlockOrAsync h]
  generalize decide (text.getLast? = some '\x7b') = last
  rcases h with hhead | ⟨rest, rfl⟩
  · obtain ⟨rest, rfl⟩ := List.head?_eq_some_iff.mp hhead
    cases last <;> rfl
  · cases last <;> rfl

/-! ## Captured lines -/

/-- A captured expression begins as the statement of its line does. -/
theorem head?_expression {line : Line} (h : line.expression ≠ []) :
    line.expression.head? = (line.statement.map Cell.char).head? := by
  obtain ⟨blanks, semicolon, hcontent, -⟩ := expression_append (line.statement.map Cell.char)
  rw [hcontent, ← Line.expression, List.head?_append_of_ne_nil _ h]

theorem head?_not_closing_of_captured {source : List Char} {entry : Nat × List Char}
    (h : entry ∈ (instrument source).captures) : entry.2.head?.any isClosing = false := by
  obtain ⟨k, line, -, -, hcaptured⟩ := mem_captures_iff.mp h
  obtain ⟨hline, hentry⟩ := Line.expression?_eq_some_iff.mp hcaptured
  rw [hentry, head?_expression hline.nonempty]
  exact head?_not_closing_of_not_isSkippedForm hline.form

/-- The two tests agree but for blocks and asynchronous functions. A captured expression opens
with no listed keyword and with no closing bracket, so it is of a form that the last statement is
left alone for only if it begins as a block or an asynchronous function. A line that begins
otherwise and is of such a form stays as it is. A text that does begin so always has such a form,
and a line is passed over for it only if a brace ends it. -/
theorem captured_statement_is_block_or_async (source : List Char) :
    (∀ entry ∈ (instrument source).captures,
        opensWithKeyword entry.2 = false ∧ entry.2.head?.any isClosing = false ∧
          (isStatementForm entry.2 = true ↔ OpensBlockOrAsync entry.2)) ∧
      (∀ k line, (lines (cells source))[k]? = some line →
        isStatementForm (line.statement.map Cell.char) = true →
        ¬OpensBlockOrAsync (line.statement.map Cell.char) → Keeps source k) ∧
      ∀ text, OpensBlockOrAsync text →
        isStatementForm text = true ∧
          isSkippedForm text = decide (text.getLast? = some '\x7b') := by
  refine ⟨fun entry hentry => ?_, fun k line hline hform hopens => ?_, fun text hopens => ?_⟩
  · have hkeyword := not_opensWithKeyword_of_captured hentry
    have hclosing := head?_not_closing_of_captured hentry
    refine ⟨hkeyword, hclosing, ?_⟩
    rw [isStatementForm_eq_true_iff, hkeyword, hclosing]
    simp
  · refine keeps_of_not_captured fun other hother => ?_
    obtain rfl := Option.some.inj (hline.symm.trans hother)
    refine Option.eq_none_iff_forall_ne_some.mpr fun e he => hopens ?_
    have hcaptured := (Line.expression?_eq_some_iff.mp he).1
    exact opensBlockOrAsync_of_isStatementForm hcaptured.form hform
  · exact ⟨isStatementForm_eq_true_iff.mpr (Or.inr (Or.inr hopens)),
      isSkippedForm_of_opensBlockOrAsync hopens⟩

/-- An asynchronous function and a block are captured where they stand on one line, though the
last statement is left alone for either. -/
theorem async_function_and_block_captured :
    instrument "async function f() \x7b\x7d".toList =
        ⟨"__scratchpad_capture(async function f() \x7b\x7d, 1);".toList,
          [(1, "async function f() \x7b\x7d".toList)]⟩ ∧
      instrument "\x7b a \x7d".toList =
        ⟨"__scratchpad_capture(\x7b a \x7d, 1);".toList, [(1, "\x7b a \x7d".toList)]⟩ ∧
      returnLast "async function f() \x7b\x7d".toList =
        ⟨"async function f() \x7b\x7d".toList, none⟩ ∧
      returnLast "\x7b a \x7d".toList = ⟨"\x7b a \x7d".toList, none⟩ := by
  decide +kernel

end SnippetRunner.Script
