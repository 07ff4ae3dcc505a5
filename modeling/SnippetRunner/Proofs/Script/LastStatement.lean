import SnippetRunner.Script.Return
import SnippetRunner.Proofs.Script.Declarations
import SnippetRunner.Proofs.Script.Lines

/-
  The cut that a script's last statement makes. The statement begins with its first significant
  character, nothing significant follows it, and its expression stands at its head; so a return
  statement moves no line end.
-/
namespace SnippetRunner.Script

open SnippetRunner.Text SnippetRunner.Source

theorem lastStatementIn_append {pieces : List (List Cell)} {after : List Cell} {s : LastStatement}
    (h : lastStatementIn pieces after = some s) :
    pieces.reverse.flatten ++ after = s.before ++ s.statement ++ s.after := by
  induction pieces generalizing after with
  | nil => cases h
  | cons piece earlier ih =>
    rw [lastStatementIn] at h
    rw [List.reverse_cons, List.flatten_append, List.flatten_singleton]
    split at h
    · obtain rfl := Option.some.inj h
      dsimp only
      rw [List.append_assoc _ (piece.takeWhile _), List.takeWhile_append_dropWhile]
    · rw [← ih h, List.append_assoc]

theorem lastStatement?_append {cs : List Cell} {s : LastStatement}
    (h : lastStatement? cs = some s) : cs = s.before ++ s.statement ++ s.after := by
  have := lastStatementIn_append h
  rwa [List.reverse_reverse, flatten_splitAfter, List.append_nil] at this

/-- The piece that holds the last statement, and the pieces around it. -/
theorem exists_piece {pieces : List (List Cell)} {after : List Cell} {s : LastStatement}
    (h : lastStatementIn pieces after = some s) :
    ∃ (later : List (List Cell)) (piece : List Cell) (earlier : List (List Cell)),
      pieces = later.reverse ++ piece :: earlier ∧
      piece.any Cell.isSignificant = true ∧
      (∀ p ∈ later, ∀ c ∈ p, c.isSignificant = false) ∧
      s = ⟨earlier.reverse.flatten ++ piece.takeWhile (!·.isSignificant),
        piece.dropWhile (!·.isSignificant), later.flatten ++ after⟩ := by
  induction pieces generalizing after with
  | nil => cases h
  | cons piece pieces ih =>
    rw [lastStatementIn] at h
    split at h
    · next hany =>
      exact ⟨[], piece, pieces, rfl, hany, by simp, (Option.some.inj h).symm⟩
    · next hnot =>
      obtain ⟨later, found, earlier, rfl, hany, hlater, rfl⟩ := ih h
      refine ⟨later ++ [piece], found, earlier, by simp, hany, ?_, by simp⟩
      intro p hp c hc
      rcases List.mem_append.mp hp with hp | hp
      · exact hlater p hp c hc
      · obtain rfl := List.mem_singleton.mp hp
        simpa using List.any_eq_false.mp (by simpa using hnot) c hc

/-- Where a last statement stands: it begins with a significant character, behind the end of
another statement or at the start, and ends where the next boundary or the script does. -/
structure LastStatement.Stands (s : LastStatement) : Prop where
  head : ∃ c more, s.statement = c :: more ∧ c.isSignificant = true
  single : ∀ c ∈ s.statement.dropLast, c.boundary = false
  after : ∀ c ∈ s.after, c.isSignificant = false
  closed : s.after ≠ [] → ∀ c ∈ s.statement.getLast?, c.boundary = true
  begins : ∃ earlier lead, s.before = earlier ++ lead ∧
    (∀ c ∈ earlier.getLast?, c.boundary = true) ∧ ∀ c ∈ lead, c.isSignificant = false

theorem lastStatement?_stands {cs : List Cell} {s : LastStatement}
    (h : lastStatement? cs = some s) : s.Stands := by
  obtain ⟨later, piece, earlier, hpieces, hany, hlater, rfl⟩ := exists_piece h
  have hsplit : splitAfter Cell.boundary cs = (earlier.reverse ++ [piece]) ++ later := by
    rw [← List.reverse_reverse (splitAfter Cell.boundary cs), hpieces]
    simp
  have hcut := cut_splitAfter Cell.boundary cs
  rw [hsplit] at hcut
  have hhead := exists_dropWhile hany
  have hstatement : piece.dropWhile (!·.isSignificant) ≠ [] := by
    obtain ⟨c, more, e, -⟩ := hhead
    rw [e]
    exact List.cons_ne_nil _ _
  exact {
    head := hhead
    single := by
      intro c hc
      refine hcut.unmarked_of_mem_dropLast
        (List.mem_append_left later (List.mem_append_right _ (List.mem_singleton_self piece))) ?_
      rw [← List.takeWhile_append_dropWhile (p := (!·.isSignificant)) (l := piece),
        List.dropLast_append_of_ne_nil hstatement]
      exact List.mem_append_right _ hc
    after := by
      intro c hc
      rw [List.append_nil] at hc
      obtain ⟨p, hp, hc⟩ := List.mem_flatten.mp hc
      exact hlater p hp c hc
    closed := by
      intro hne c hc
      refine hcut.marked_of_getLast? ?_ (a := c) ?_
      · rintro rfl
        exact hne rfl
      · rw [List.flatten_append, List.flatten_singleton,
          ← List.takeWhile_append_dropWhile (p := (!·.isSignificant)) (l := piece),
          List.getLast?_append_of_ne_nil _ (List.append_ne_nil_of_right_ne_nil _ hstatement),
          List.getLast?_append_of_ne_nil _ hstatement]
        exact hc
    begins := by
      refine ⟨_, _, rfl, fun c hc => ?_, fun c hc => ?_⟩
      · rw [List.append_assoc] at hcut
        exact hcut.marked_of_getLast? (by simp) hc
      · simpa using List.mem_takeWhile_imp hc }

namespace LastStatement

/-- The expression stands at the head of the statement. -/
theorem expression_append (s : LastStatement) :
    ∃ dropped, s.statement.map Cell.char = s.expression ++ dropped := by
  obtain ⟨after, hafter, -⟩ := upToLast_append Cell.isSignificant s.statement
  obtain ⟨blanks, semicolon, e, -⟩ :=
    Script.expression_append ((upToLast Cell.isSignificant s.statement).map Cell.char)
  refine ⟨blanks ++ semicolon ++ after.map Cell.char, ?_⟩
  rw [expression, ← List.append_assoc, ← e, ← List.map_append, ← hafter]

theorem newlines_tail (s : LastStatement) :
    newlines s.expression + newlines s.tail = newlines (s.statement.map Cell.char) := by
  obtain ⟨dropped, h⟩ := s.expression_append
  have htail : newlines s.tail = newlines dropped := by
    rw [tail, h, List.drop_left]
    exact List.count_filter (by decide)
  rw [h, newlines_append, htail]

theorem newlines_returned (s : LastStatement) :
    newlines s.returned = newlines ((s.before ++ s.statement ++ s.after).map Cell.char) := by
  have hreturn : newlines "return ".toList = 0 := by decide
  have hend : newlines ";".toList = 0 := by decide
  have htail := s.newlines_tail
  unfold returned
  simp only [newlines_append, List.map_append, hreturn, hend]
  omega

end LastStatement

theorem returnLast_of_lastStatement {source : List Char} {s : LastStatement}
    (h : lastStatement? (cells source) = some s) :
    returnLast source = if s.isReturnable then ⟨s.returned, some s.line⟩ else ⟨source, none⟩ := by
  rw [returnLast, h]

theorem newlines_returnLast (source : List Char) :
    newlines (returnLast source).text = newlines source := by
  unfold returnLast
  split
  · next s h =>
    split
    · dsimp only
      rw [s.newlines_returned, ← lastStatement?_append h, map_char_cells]
    · rfl
  · rfl

/-- The line of the returned expression is a line of the script. -/
theorem line_of_returnLast {source : List Char} {number : Nat}
    (h : (returnLast source).line = some number) :
    1 ≤ number ∧ number ≤ newlines source + 1 := by
  unfold returnLast at h
  split at h
  · next s hs =>
    split at h
    · obtain rfl := Option.some.inj h
      have e := congrArg (List.map Cell.char) (lastStatement?_append hs)
      rw [map_char_cells, List.append_assoc, List.map_append] at e
      have := congrArg newlines e
      rw [newlines_append] at this
      rw [LastStatement.line]
      omega
    · cases h
  · cases h

end SnippetRunner.Script
