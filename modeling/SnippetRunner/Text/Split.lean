/-
  Cutting lists into pieces, and removing a known beginning.
-/
namespace SnippetRunner.Text

/-- Cuts after every element that satisfies `p`, so that the pieces join to the whole list. -/
def splitAfter {α : Type} (p : α → Bool) : List α → List (List α)
  | [] => []
  | a :: rest =>
    if p a then [a] :: splitAfter p rest
    else
      match splitAfter p rest with
      | [] => [[a]]
      | piece :: pieces => (a :: piece) :: pieces

theorem flatten_splitAfter {α : Type} (p : α → Bool) (s : List α) :
    (splitAfter p s).flatten = s := by
  induction s with
  | nil => rfl
  | cons a rest ih =>
    unfold splitAfter
    split
    · simp [ih]
    · split
      · next h => rw [h] at ih; simpa using ih
      · next h => rw [h] at ih; simpa using ih

/-- The pieces between the elements that satisfy `p`; there is always at least one. -/
def splitBetween {α : Type} (p : α → Bool) : List α → List (List α)
  | [] => [[]]
  | a :: rest =>
    if p a then [] :: splitBetween p rest
    else
      match splitBetween p rest with
      | [] => [[a]]
      | piece :: pieces => (a :: piece) :: pieces

/-- What follows `start` in `s`, if `s` begins with it. -/
def dropStart? {α : Type} [DecidableEq α] : (start s : List α) → Option (List α)
  | [], s => some s
  | _ :: _, [] => none
  | a :: start, b :: s => if a = b then dropStart? start s else none

theorem dropStart?_eq_some_iff {α : Type} [DecidableEq α] {start s rest : List α} :
    dropStart? start s = some rest ↔ s = start ++ rest := by
  induction start generalizing s with
  | nil => simp [dropStart?, eq_comm]
  | cons a start ih =>
    cases s with
    | nil => simp [dropStart?]
    | cons b s =>
      by_cases h : a = b
      · simp [dropStart?, h, ih]
      · simp [dropStart?, h, Ne.symm h]

/-- Whether `part` occurs in `s`. -/
def occursIn {α : Type} [DecidableEq α] (part : List α) : List α → Bool
  | [] => part.isEmpty
  | a :: rest => (dropStart? part (a :: rest)).isSome || occursIn part rest

def newlines (s : List Char) : Nat := s.count '\n'

end SnippetRunner.Text
