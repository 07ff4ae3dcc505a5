import SnippetRunner.Proofs.Script.LineAttribution
import SnippetRunner.Proofs.Script.ReturnCut
import SnippetRunner.Proofs.Source.Comments
import SnippetRunner.Proofs.Text.Word

/-
  Words that no expression begins with. A text that opens with one of the listed keywords is
  neither captured nor returned. The words that go on with a control statement are not listed:
  a clause that stands behind a boundary is taken for an expression, as the last branch of a
  conditional is.
-/
namespace SnippetRunner.Script

open SnippetRunner.Text SnippetRunner.Source

/-- Words that head a clause of a control statement, or stand between two expressions. -/
def clauseWords : List (List Char) :=
  ["else", "catch", "finally", "case", "default", "with", "in", "instanceof"].map String.toList

/-- Words that no expression begins with. -/
def reservedWords : List (List Char) := clauseWords ++ statementKeywords

/-! ## Opening words -/

theorem opensWithWord_iff {text word : List Char} :
    opensWithWord text word = true ↔ ∃ rest, text = word ++ rest ∧ identifierEnds rest = true := by
  rw [opensWithWord, Option.any_eq_true]
  simp only [dropStart?_eq_some_iff]

theorem identifierEnds_append {rest more : List Char} (h : identifierEnds rest = true)
    (hmore : identifierEnds more = true) : identifierEnds (rest ++ more) = true := by
  cases rest with
  | nil => exact hmore
  | cons c rest => exact h

theorem identifierEnds_of_isBlank {c : Char} (h : isBlank c = true) (rest : List Char) :
    identifierEnds (c :: rest) = true := by
  have hunderscore : c ≠ '_' := by
    rintro rfl
    exact absurd h (by decide)
  have hdollar : c ≠ '$' := by
    rintro rfl
    exact absurd h (by decide)
  simp [identifierEnds, not_isAlphanumeric_of_isBlank h, hunderscore, hdollar]

/-- What is cut off behind an expression goes on with no word. -/
theorem identifierEnds_of_dropped {blanks semicolon : List Char}
    (hblanks : ∀ c ∈ blanks, isBlank c = true) (hsemi : semicolon = [] ∨ semicolon = [';']) :
    identifierEnds (blanks ++ semicolon) = true := by
  cases blanks with
  | nil => rcases hsemi with rfl | rfl <;> decide
  | cons c blanks => exact identifierEnds_of_isBlank (hblanks c (List.mem_cons_self ..)) _

/-- No identifier ends before one of the characters of the word. -/
def IsName (word : List Char) : Prop := ∀ c ∈ word, identifierEnds [c] = false

theorem isName_of_mem_reservedWords {word : List Char} (h : word ∈ reservedWords) :
    IsName word := by
  have hall : ∀ w ∈ reservedWords, w.all (fun c => !identifierEnds [c]) = true := by decide
  intro c hc
  simpa using List.all_eq_true.mp (hall word h) c hc

theorem IsName.eq_nil {more rest : List Char} (h : IsName more)
    (hends : identifierEnds (more ++ rest) = true) : more = [] := by
  cases more with
  | nil => rfl
  | cons c more =>
    have hc : identifierEnds (c :: (more ++ rest)) = identifierEnds [c] := rfl
    rw [List.cons_append, hc, h c (List.mem_cons_self ..)] at hends
    cases hends

/-- A text opens with the words with which its head does, if none goes on behind that. -/
theorem opensWithWord_append {text more word : List Char} (hname : IsName word)
    (hmore : identifierEnds more = true) :
    opensWithWord (text ++ more) word = opensWithWord text word := by
  rw [Bool.eq_iff_iff, opensWithWord_iff, opensWithWord_iff]
  constructor
  · rintro ⟨rest, heq, hends⟩
    rcases List.append_eq_append_iff.mp heq with ⟨tail, rfl, rfl⟩ | ⟨tail, rfl, rfl⟩
    · have htail : IsName tail := fun c hc => hname c (List.mem_append_right text hc)
      refine ⟨[], ?_, rfl⟩
      rw [htail.eq_nil hmore, List.append_nil, List.append_nil]
    · refine ⟨tail, rfl, ?_⟩
      cases tail with
      | nil => rfl
      | cons c tail => exact hends
  · rintro ⟨rest, rfl, hends⟩
    exact ⟨rest ++ more, List.append_assoc .., identifierEnds_append hends hmore⟩

/-- A text opens with one word only. -/
theorem eq_of_opensWithWord {text a b : List Char} (ha : IsName a) (hb : IsName b)
    (hopensA : opensWithWord text a = true) (hopensB : opensWithWord text b = true) : a = b := by
  obtain ⟨restA, rfl, hendsA⟩ := opensWithWord_iff.mp hopensA
  obtain ⟨restB, heq, hendsB⟩ := opensWithWord_iff.mp hopensB
  rcases List.append_eq_append_iff.mp heq with ⟨more, rfl, rfl⟩ | ⟨more, rfl, rfl⟩
  · have hmore : IsName more := fun c hc => hb c (List.mem_append_right a hc)
    rw [hmore.eq_nil hendsA, List.append_nil]
  · have hmore : IsName more := fun c hc => ha c (List.mem_append_right b hc)
    rw [hmore.eq_nil hendsB, List.append_nil]

/-! ## The words of clauses -/

theorem not_opensWithKeyword_of_clauseWord {text word : List Char} (hword : word ∈ clauseWords)
    (h : opensWithWord text word = true) : opensWithKeyword text = false := by
  have hdisjoint : ∀ w ∈ clauseWords, w ∉ statementKeywords := by decide
  refine List.any_eq_false.mpr fun keyword hkeyword hopens => hdisjoint word hword ?_
  have heq := eq_of_opensWithWord
    (isName_of_mem_reservedWords (List.mem_append_left _ hword))
    (isName_of_mem_reservedWords (List.mem_append_right _ hkeyword)) h hopens
  rwa [heq]

/-- The last statement is not left alone for the word of a clause. -/
theorem not_isStatementForm_of_clauseWord {text word : List Char} (hword : word ∈ clauseWords)
    (h : opensWithWord text word = true) : isStatementForm text = false := by
  rw [isStatementForm, not_opensWithKeyword_of_clauseWord hword h]
  obtain ⟨rest, rfl, -⟩ := opensWithWord_iff.mp h
  simp only [clauseWords, List.map_cons, List.map_nil, List.mem_cons, List.not_mem_nil,
    or_false] at hword
  rcases hword with rfl | rfl | rfl | rfl | rfl | rfl | rfl | rfl <;> rfl

/-- Among the lines that open with the word of a clause, those are left alone that end with a
brace. -/
theorem isSkippedForm_of_clauseWord {text word : List Char} (hword : word ∈ clauseWords)
    (h : opensWithWord text word = true) :
    isSkippedForm text = decide (text.getLast? = some '\x7b') := by
  rw [isSkippedForm, not_opensWithKeyword_of_clauseWord hword h]
  obtain ⟨rest, rfl, -⟩ := opensWithWord_iff.mp h
  simp only [clauseWords, List.map_cons, List.map_nil, List.mem_cons, List.not_mem_nil,
    or_false] at hword
  generalize hlast : decide ((word ++ rest).getLast? = some '\x7b') = last
  rcases hword with rfl | rfl | rfl | rfl | rfl | rfl | rfl | rfl <;> cases last <;> rfl

/-! ## Listed keywords -/

theorem not_opensWithWord_of_not_opensWithKeyword {text word : List Char}
    (h : opensWithKeyword text = false) (hword : word ∈ statementKeywords) :
    opensWithWord text word = false := by
  simpa using List.any_eq_false.mp h word hword

/-- A text that opens with no listed keyword opens with the word of a clause if with any. -/
theorem mem_clauseWords_of_opensWithWord {text word : List Char}
    (h : opensWithKeyword text = false) (hword : word ∈ reservedWords)
    (hopens : opensWithWord text word = true) : word ∈ clauseWords := by
  rcases List.mem_append.mp hword with hclause | hkeyword
  · exact hclause
  · rw [not_opensWithWord_of_not_opensWithKeyword h hkeyword] at hopens
    cases hopens

theorem opensWithKeyword_append {text more : List Char} (hmore : identifierEnds more = true) :
    opensWithKeyword (text ++ more) = opensWithKeyword text := by
  rw [opensWithKeyword, opensWithKeyword, Bool.eq_iff_iff, List.any_eq_true, List.any_eq_true]
  refine exists_congr fun word => and_congr_right fun hword => ?_
  rw [opensWithWord_append (isName_of_mem_reservedWords (List.mem_append_right _ hword)) hmore]

theorem not_opensWithKeyword_of_captured {source : List Char} {entry : Nat × List Char}
    (h : entry ∈ (instrument source).captures) : opensWithKeyword entry.2 = false := by
  obtain ⟨k, line, -, -, hcaptured⟩ := mem_captures_iff.mp h
  obtain ⟨hline, hentry⟩ := Line.expression?_eq_some_iff.mp hcaptured
  obtain ⟨blanks, semicolon, hcontent, hblanks, hsemi, -⟩ :=
    expression_append (line.statement.map Cell.char)
  have hform := hline.form
  simp only [isSkippedForm, Bool.or_eq_false_iff] at hform
  rw [hcontent, opensWithKeyword_append (identifierEnds_of_dropped hblanks hsemi)] at hform
  rw [hentry]
  exact hform.1.1.1.1.1

namespace LastStatement

variable {source : List Char} {s : LastStatement}

/-- What is cut off behind the expression of the last statement goes on with no word. -/
theorem exists_dropped (h : lastStatement? (cells source) = some s) :
    ∃ dropped, s.statement.map Cell.char = s.expression ++ dropped ∧
      identifierEnds dropped = true := by
  obtain ⟨c, more, hhead, hc⟩ := (lastStatement?_stands h).head
  obtain ⟨init, last, after, hshown, hstatement, hlast, hafter⟩ :=
    exists_upToLast (p := Cell.isSignificant) (s := s.statement) (by rw [hhead]; simp [hc])
  obtain ⟨blanks, semicolon, hcontent, hblanks, hsemi, -⟩ :=
    Script.expression_append ((upToLast Cell.isSignificant s.statement).map Cell.char)
  refine ⟨blanks ++ semicolon ++ after.map Cell.char, ?_, ?_⟩
  · rw [expression, ← List.append_assoc, ← hcontent, hshown, hstatement, List.map_append]
  · refine identifierEnds_append (identifierEnds_of_dropped hblanks hsemi) ?_
    cases after with
    | nil => rfl
    | cons d after =>
      rcases isBlank_or_isComment_of_not_significant (hafter d (List.mem_cons_self ..)) with
        hblank | hcomment
      · exact identifierEnds_of_isBlank hblank _
      · have hjoin : cells source =
            (s.before ++ init) ++ last :: d :: (after ++ s.after) := by
          rw [lastStatement?_append h, hstatement]
          simp
        have hnot : last.isComment = false := by
          cases hcase : last.isComment with
          | false => rfl
          | true =>
            have hcomment : last.glyph.isComment = true := hcase
            rw [Cell.isSignificant, Glyph.isSignificant, hcomment] at hlast
            cases hlast
        rw [List.map_cons, char_of_comment_begins hjoin hnot hcomment]
        rfl

/-- What is returned opens with no listed keyword. -/
theorem not_opensWithKeyword_of_isReturnable (h : lastStatement? (cells source) = some s)
    (hreturnable : s.isReturnable = true) {more : List Char} (hmore : identifierEnds more = true) :
    opensWithKeyword (s.expression ++ more) = false := by
  obtain ⟨dropped, hstatement, hends⟩ := exists_dropped h
  rw [isReturnable, Bool.and_eq_true, Bool.not_eq_true', isStatementForm, Bool.or_eq_false_iff,
    Bool.or_eq_false_iff, hstatement, opensWithKeyword_append hends] at hreturnable
  rw [opensWithKeyword_append hmore]
  exact hreturnable.1.1.1

end LastStatement

/-- A captured expression, and the text that stands behind the word `return` put in, may open with
the word of a clause but with no other word that an expression does not begin with. The words of
clauses are passed over: the last statement is never left alone for one, and a line only if a
brace ends it. -/
theorem reserved_opening_is_clause (source : List Char) :
    (∀ entry ∈ (instrument source).captures, ∀ word ∈ reservedWords,
        opensWithWord entry.2 word = true → word ∈ clauseWords) ∧
      (returnLast source = ⟨source, none⟩ ∨
        ∃ before expression spare after returned, LastCut source before expression spare after ∧
          (returnLast source).text = before.map Cell.char ++ "return ".toList ++ returned ∧
          ∀ word ∈ reservedWords, opensWithWord returned word = true → word ∈ clauseWords) ∧
      ∀ text, ∀ word ∈ clauseWords, opensWithWord text word = true →
        isStatementForm text = false ∧
          isSkippedForm text = decide (text.getLast? = some '\x7b') := by
  refine ⟨fun entry hentry word hword hopens => ?_, ?_, fun text word hword hopens => ?_⟩
  · exact mem_clauseWords_of_opensWithWord (not_opensWithKeyword_of_captured hentry) hword hopens
  · cases h : lastStatement? (cells source) with
    | none => exact Or.inl (by rw [returnLast, h])
    | some s =>
      rw [returnLast_of_lastStatement h]
      split
      · next hreturnable =>
        obtain ⟨expression, spare, hcut, -⟩ := LastStatement.exists_lastCut h
        refine Or.inr ⟨_, expression, spare, _,
          s.expression ++ (";".toList ++ s.tail ++ s.after.map Cell.char), hcut, ?_, ?_⟩
        · rw [LastStatement.returned]
          simp only [List.append_assoc]
        · intro word hword hopens
          exact mem_clauseWords_of_opensWithWord
            (LastStatement.not_opensWithKeyword_of_isReturnable h hreturnable rfl) hword hopens
      · exact Or.inl rfl
  · exact ⟨not_isStatementForm_of_clauseWord hword hopens,
      isSkippedForm_of_clauseWord hword hopens⟩

/-- The last branch of a conditional is returned, and captured where it stands on its own line. -/
theorem else_branch_returned :
    returnLast "if (a) b\nelse c".toList = ⟨"if (a) b\nreturn else c;".toList, some 2⟩ ∧
      (instrument "if (a) b\nelse c".toList).captures = [(2, "else c".toList)] := by
  decide +kernel

end SnippetRunner.Script
