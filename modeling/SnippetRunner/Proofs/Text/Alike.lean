import SnippetRunner.Text.Blank
import SnippetRunner.Text.Split
import SnippetRunner.Text.Word
import Mathlib.Data.Option.Basic

/-
  Texts that are the same up to an edge. Two texts can differ behind the first character of
  either that is an edge; both have one at that place, but not always the same. A search that
  gives up at an edge comes to the same in both.
-/
namespace SnippetRunner.Text

/-- The texts are the same up to their end, or up to an edge of either, or up to a character of
`halts` that they share. -/
inductive Alike (edges halts : List Char) : List Char → List Char → Prop where
  | nil : Alike edges halts [] []
  | edge {c d : Char} (hc : c ∈ edges) (hd : d ∈ edges) (s t : List Char) :
      Alike edges halts (c :: s) (d :: t)
  | halt {c : Char} (hc : c ∈ halts) (s t : List Char) : Alike edges halts (c :: s) (c :: t)
  | cons (c : Char) {s t : List Char} (h : Alike edges halts s t) :
      Alike edges halts (c :: s) (c :: t)

namespace Alike

variable {edges halts s t : List Char}

theorem any_head? (h : Alike edges halts s t) {p : Char → Bool} (hp : ∀ c ∈ edges, p c = false) :
    s.head?.any p = t.head?.any p := by
  cases h with
  | nil => rfl
  | edge hc hd => rw [List.head?_cons, List.head?_cons, Option.any_some, Option.any_some, hp _ hc,
      hp _ hd]
  | halt hc => rfl
  | cons c => rfl

theorem isEmpty_eq (h : Alike edges halts s t) : s.isEmpty = t.isEmpty := by
  cases h <;> rfl

theorem wordEnds_eq (h : Alike edges halts s t) (hedges : ∀ c ∈ edges, isWord c = false) :
    wordEnds s = wordEnds t := by
  rw [wordEnds, wordEnds, h.any_head? hedges]

/-- Passing over characters that are no edge. -/
theorem dropWhile (h : Alike edges halts s t) {p : Char → Bool} (hp : ∀ c ∈ edges, p c = false)
    (hhalts : ∀ c ∈ halts, p c = false) :
    Alike edges halts (s.dropWhile p) (t.dropWhile p) := by
  induction h with
  | nil => exact .nil
  | edge hc hd s t =>
    rw [List.dropWhile_cons_of_neg (by simp [hp _ hc]),
      List.dropWhile_cons_of_neg (by simp [hp _ hd])]
    exact .edge hc hd s t
  | halt hc s t =>
    rw [List.dropWhile_cons_of_neg (by simp [hhalts _ hc]),
      List.dropWhile_cons_of_neg (by simp [hhalts _ hc])]
    exact .halt hc s t
  | @cons c s t h ih =>
    cases hc : p c with
    | true => rwa [List.dropWhile_cons_of_pos hc, List.dropWhile_cons_of_pos hc]
    | false =>
      rw [List.dropWhile_cons_of_neg (by simp [hc]), List.dropWhile_cons_of_neg (by simp [hc])]
      exact .cons c h

/-- A beginning without edges is that of both or of neither. -/
theorem dropStart? (h : Alike edges halts s t) {start : List Char}
    (hstart : ∀ c ∈ start, c ∉ edges ∧ c ∉ halts) :
    Option.Rel (Alike edges halts) (dropStart? start s) (dropStart? start t) := by
  induction start generalizing s t with
  | nil => exact .some h
  | cons a start ih =>
    obtain ⟨hedge, hhalt⟩ := hstart a (List.mem_cons_self ..)
    cases h with
    | nil => exact .none
    | @edge c d hc hd =>
      have hne : a ≠ c ∧ a ≠ d :=
        ⟨by rintro rfl; exact hedge hc, by rintro rfl; exact hedge hd⟩
      rw [Text.dropStart?, Text.dropStart?, if_neg hne.1, if_neg hne.2]
      exact .none
    | @halt c hc =>
      have hne : a ≠ c := by
        rintro rfl
        exact hhalt hc
      rw [Text.dropStart?, Text.dropStart?, if_neg hne, if_neg hne]
      exact .none
    | cons c h =>
      rw [Text.dropStart?, Text.dropStart?]
      split
      · exact ih h fun d hd => hstart d (List.mem_cons_of_mem _ hd)
      · exact .none

/-- Both texts go on after the beginning as `p` wants it, or neither does. -/
theorem dropStart?_any (h : Alike edges halts s t) {start : List Char}
    (hstart : ∀ c ∈ start, c ∉ edges ∧ c ∉ halts) {p : List Char → Bool}
    (hp : ∀ {rest rest'}, Alike edges halts rest rest' → p rest = p rest') :
    (Text.dropStart? start s).any p = (Text.dropStart? start t).any p := by
  have hrel := h.dropStart? hstart
  generalize Text.dropStart? start s = rest, Text.dropStart? start t = rest' at hrel
  cases hrel with
  | some hrest => exact hp hrest
  | none => rfl

theorem dropStart?_isSome (h : Alike edges halts s t) {start : List Char}
    (hstart : ∀ c ∈ start, c ∉ edges ∧ c ∉ halts) :
    (Text.dropStart? start s).isSome = (Text.dropStart? start t).isSome := by
  have hany := h.dropStart?_any hstart (p := fun _ => true) fun _ => rfl
  revert hany
  cases Text.dropStart? start s <;> cases Text.dropStart? start t <;> simp

/-- What no edge satisfies does not hold of all of a text that has one. -/
theorem all_eq (h : Alike edges [] s t) {p : Char → Bool} (hp : ∀ c ∈ edges, p c = false) :
    s.all p = t.all p := by
  induction h with
  | nil => rfl
  | edge hc hd s t => rw [List.all_cons, List.all_cons, hp _ hc, hp _ hd, Bool.false_and,
      Bool.false_and]
  | halt hc => cases hc
  | cons c _ ih => rw [List.all_cons, List.all_cons, ih]

end Alike

end SnippetRunner.Text
