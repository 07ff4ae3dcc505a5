import Mathlib.Data.List.Forall2
import Mathlib.Data.List.TakeWhile
import SnippetRunner.Error.Diagnostic
import SnippetRunner.Proofs.Number.Double
import SnippetRunner.Proofs.Text.Cut
import SnippetRunner.Run.Reply

/-
  Where parse errors point. A position that comes with an error may be any two numbers; the error
  has one in the script, and shows its line with a caret below its column.
  `malformed_pinpoints`: this holds of an error built from any position, hence of every parse error
  that a reply reports or that is read off the text of a crashed runtime. Lines and columns count
  from one, and the table of lines and the characters of a line from zero; the subtraction between
  the two is made with a check (`clamp?`, `caretDisplay?`), which never fails.
-/
namespace SnippetRunner

open SnippetRunner.Text

/-! ## Lines -/

/-- `text` is the line of a script with this number, counted from one, without the carriage returns
at its end. -/
def IsLine (source : List Char) (number : Nat) (text : List Char) : Prop :=
  ∃ before returns rest, source = before ++ (text ++ returns ++ rest) ∧
    newlines before + 1 = number ∧
    before.getLast?.all (· = '\n') = true ∧ rest.head?.all (· = '\n') = true ∧
    (∀ c ∈ text, c ≠ '\n') ∧ (∀ c ∈ returns, c = '\r') ∧ text.getLast? ≠ some '\r'

namespace Position

/-- A line without the carriage returns at its end. -/
def withoutReturns (line : List Char) : List Char := (line.reverse.dropWhile (· = '\r')).reverse

theorem exists_returns (line : List Char) :
    ∃ returns, line = withoutReturns line ++ returns ∧ (∀ c ∈ returns, c = '\r') ∧
      (withoutReturns line).getLast? ≠ some '\r' := by
  refine ⟨(line.reverse.takeWhile (· = '\r')).reverse, ?_, fun c hc => ?_, ?_⟩
  · rw [withoutReturns, ← List.reverse_append, List.takeWhile_append_dropWhile,
      List.reverse_reverse]
  · simpa using List.mem_takeWhile_imp (List.mem_reverse.mp hc)
  · rw [withoutReturns, List.getLast?_reverse]
    intro h
    have hnot := List.head?_dropWhile_not (· = '\r') line.reverse
    rw [h] at hnot
    simp at hnot

theorem withoutReturns_append {text returns : List Char} (hreturns : ∀ c ∈ returns, c = '\r')
    (htext : text.getLast? ≠ some '\r') : withoutReturns (text ++ returns) = text := by
  have hdrop : text.reverse.dropWhile (· = '\r') = text.reverse := by
    cases h : text.reverse with
    | nil => rfl
    | cons c rest =>
      have hc : c ≠ '\r' := by
        rintro rfl
        rw [← List.head?_reverse, h] at htext
        exact htext rfl
      exact List.dropWhile_cons_of_neg (by simpa using hc)
  rw [withoutReturns, List.reverse_append,
    List.dropWhile_append_of_pos fun c hc => by simp [hreturns c (List.mem_reverse.mp hc)], hdrop,
    List.reverse_reverse]

theorem countP_newlines (s : List Char) : s.countP (fun c => decide (c = '\n')) = newlines s :=
  List.countP_congr fun c _ => by simp

theorem length_sourceLines (source : List Char) :
    (sourceLines source).length = newlines source + 1 := by
  rw [sourceLines, List.length_map, length_splitBetween, countP_newlines]

/-- The table of lines holds the lines of a script. -/
theorem sourceLines_getElem?_iff {source text : List Char} {index : Nat} :
    (sourceLines source)[index]? = some text ↔ IsLine source (index + 1) text := by
  rw [sourceLines, List.getElem?_map, Option.map_eq_some_iff]
  simp only [splitBetween_getElem?_iff]
  constructor
  · rintro ⟨line, ⟨before, rest, rfl, hnumber, hlast, hrest, hline⟩, rfl⟩
    obtain ⟨returns, hjoin, hreturns, hend⟩ := exists_returns line
    have hfeedless : ∀ c ∈ withoutReturns line, c ≠ '\n' := fun c hc =>
      of_decide_eq_false (hline c (by rw [hjoin]; exact List.mem_append_left _ hc))
    refine ⟨before, returns, rest, ?_, by rw [← countP_newlines, hnumber], hlast, hrest, hfeedless,
      hreturns, hend⟩
    exact congrArg (fun line => before ++ (line ++ rest)) hjoin
  · rintro ⟨before, returns, rest, rfl, hnumber, hlast, hrest, htext, hreturns, hend⟩
    have hunmarked : ∀ c ∈ text ++ returns, decide (c = '\n') = false := by
      intro c hc
      rcases List.mem_append.mp hc with hc | hc
      · exact decide_eq_false (htext c hc)
      · rw [hreturns c hc]
        decide
    refine ⟨text ++ returns, ⟨before, rest, rfl, ?_, hlast, hrest, hunmarked⟩,
      withoutReturns_append hreturns hend⟩
    rw [countP_newlines]
    omega

theorem lineText_of_isLine {source text : List Char} {number : Nat}
    (h : IsLine source number text) : lineText source number = text := by
  obtain ⟨before, -, -, -, rfl, -⟩ := id h
  rw [lineText, Nat.add_sub_cancel, sourceLines_getElem?_iff.mpr h, Option.getD_some]

theorem isLine_lineText {source : List Char} {number : Nat} (hfirst : 1 ≤ number)
    (hlast : number ≤ newlines source + 1) : IsLine source number (lineText source number) := by
  obtain ⟨index, rfl⟩ : ∃ index, number = index + 1 := ⟨number - 1, by omega⟩
  have hindex : index < (sourceLines source).length := by
    rw [length_sourceLines]
    omega
  rw [← sourceLines_getElem?_iff, lineText, Nat.add_sub_cancel, List.getElem?_eq_getElem hindex,
    Option.getD_some]

/-! ## Positions in a script -/

/-- The position is on a line of the script, at most just behind its last character. -/
def LiesIn (p : Position) (source : List Char) : Prop :=
  1 ≤ p.column ∧ ∃ text, IsLine source p.line text ∧ p.column ≤ text.length + 1

theorem le_clampNat {low high n : Nat} : low ≤ clampNat low high n := Nat.le_max_left _ _

theorem clampNat_le {low high n : Nat} (h : low ≤ high) : clampNat low high n ≤ high :=
  Nat.max_le.mpr ⟨h, Nat.min_le_left _ _⟩

theorem clampNat_eq_self {low high n : Nat} (hlow : low ≤ n) (hhigh : n ≤ high) :
    clampNat low high n = n := by
  rw [clampNat, Nat.min_eq_right hhigh, Nat.max_eq_right hlow]

theorem clamp_line_le (source : List Char) (p : Position) :
    (p.clamp source).line ≤ newlines source + 1 := by
  rw [← length_sourceLines]
  exact clampNat_le (by rw [length_sourceLines]; omega)

theorem isLine_clamp (source : List Char) (p : Position) :
    IsLine source (p.clamp source).line (lineText source (p.clamp source).line) :=
  isLine_lineText le_clampNat (p.clamp_line_le source)

theorem clamp_column_le (source : List Char) (p : Position) :
    (p.clamp source).column ≤ (lineText source (p.clamp source).line).length + 1 :=
  clampNat_le (Nat.le_add_left 1 _)

theorem clamp_eq_self {source : List Char} {p : Position} (h : p.LiesIn source) :
    p.clamp source = p := by
  obtain ⟨hcolumn, text, hline, hwidth⟩ := h
  have htext := lineText_of_isLine hline
  have hnumber : 1 ≤ p.line ∧ p.line ≤ (sourceLines source).length := by
    obtain ⟨before, returns, rest, hsource, hnumber, -⟩ := hline
    rw [length_sourceLines, hsource, newlines, List.count_append]
    rw [newlines] at hnumber
    omega
  rw [clamp, clampNat_eq_self hnumber.1 hnumber.2, htext, clampNat_eq_self hcolumn hwidth]

/-! ## Subtraction with a check -/

/-- `a` less `b`, unless that is below zero. -/
def minus? (a b : Nat) : Option Nat := if b ≤ a then some (a - b) else none

/-- `n` moved into a range, unless the range is empty. -/
def clampNat? (low high n : Nat) : Option Nat :=
  if low ≤ high then some (clampNat low high n) else none

def clamp? (source : List Char) (p : Position) : Option Position := do
  let lines := sourceLines source
  let line ← clampNat? 1 (max lines.length 1) p.line
  let width := (lines[← minus? line 1]?.map List.length).getD 0
  return ⟨line, ← clampNat? 1 (width + 1) p.column⟩

def lineText? (source : List Char) (line : Nat) : Option (List Char) := do
  return ((sourceLines source)[← minus? line 1]?).getD []

def padding? (text : List Char) (column : Nat) : Option (List Char) := do
  return (text.take (← minus? column 1)).map fun c => if c = '\t' then '\t' else ' '

/-- A line, and a caret behind `padding` below it. -/
def display (heading text padding : List Char) (p : Position) : List Char :=
  let gutter := (Nat.repr p.line).toList
  heading ++ " (".toList ++ gutter ++ ":".toList ++ (Nat.repr p.column).toList ++ ")\n ".toList
    ++ gutter ++ " | ".toList ++ text ++ "\n ".toList ++ List.replicate gutter.length ' '
    ++ " | ".toList ++ padding ++ "^".toList

def caretDisplay? (source heading : List Char) (p : Position) : Option (List Char) := do
  let text ← lineText? source p.line
  return p.display heading text (← padding? text p.column)

theorem minus?_of_le {a b : Nat} (h : b ≤ a) : minus? a b = some (a - b) := if_pos h

theorem clamp?_eq (source : List Char) (p : Position) :
    p.clamp? source = some (p.clamp source) := by
  have hlines : max (sourceLines source).length 1 = (sourceLines source).length :=
    Nat.max_eq_left (by rw [length_sourceLines]; omega)
  have hline : clampNat? 1 (sourceLines source).length p.line =
      some (clampNat 1 (sourceLines source).length p.line) :=
    if_pos (by rw [length_sourceLines]; omega)
  have hwidth (line : Nat) : ((sourceLines source)[line - 1]?.map List.length).getD 0 =
      (lineText source line).length := by
    rw [lineText]
    cases (sourceLines source)[line - 1]? <;> rfl
  have hcolumn (width : Nat) : clampNat? 1 (width + 1) p.column =
      some (clampNat 1 (width + 1) p.column) :=
    if_pos (Nat.le_add_left 1 width)
  simp only [clamp?, hlines, hline, Option.bind_eq_bind, Option.bind_some,
    minus?_of_le le_clampNat, hwidth, hcolumn]
  rfl

theorem caretDisplay?_eq {source heading : List Char} {p : Position} (hline : 1 ≤ p.line)
    (hcolumn : 1 ≤ p.column) :
    p.caretDisplay? source heading = some (p.caretDisplay source heading) := by
  simp only [caretDisplay?, lineText?, padding?, minus?_of_le hline, minus?_of_le hcolumn,
    Option.bind_eq_bind, Option.bind_some]
  rfl

/-! ## The caret -/

/-- The last two lines of a display: the line `text` behind a gutter with its number, and a caret.
Before the caret stand as many characters as before the character at the column, and the tabs
among them are those of `text`. -/
structure CaretRows (shown text : List Char) (p : Position) where
  above : List Char
  gutter : List Char
  margin : List Char
  padding : List Char
  join : shown = above ++ '\n' :: (gutter ++ text) ++ '\n' :: (margin ++ padding ++ ['^'])
  lineRow : ∀ c ∈ gutter ++ text, c ≠ '\n'
  caretRow : ∀ c ∈ margin ++ padding ++ ['^'], c ≠ '\n'
  number : gutter = ' ' :: (Nat.repr p.line).toList ++ " | ".toList
  aligned : (margin ++ padding).length = (gutter ++ text.take (p.column - 1)).length
  column : padding.length = p.column - 1
  tabless : ∀ c ∈ margin, c ≠ '\t'
  tabs : List.Forall₂ (fun c d => d = '\t' ↔ c = '\t') (text.take (p.column - 1)) padding

theorem length_padding {text : List Char} {column : Nat} (h : column ≤ text.length + 1) :
    (padding text column).length = column - 1 := by
  rw [padding, List.length_map, List.length_take]
  omega

theorem tabs_padding (text : List Char) (column : Nat) :
    List.Forall₂ (fun c d => d = '\t' ↔ c = '\t') (text.take (column - 1))
      (padding text column) := by
  rw [padding, List.forall₂_map_right_iff, List.forall₂_same]
  intro c _
  split
  · next h => simp [h]
  · next h => simp [h]

theorem feedless_padding (text : List Char) (column : Nat) :
    ∀ c ∈ padding text column, c ≠ '\n' := by
  intro c hc
  obtain ⟨d, -, rfl⟩ := List.mem_map.mp hc
  split <;> decide

theorem feedless_repr (n : Nat) : ∀ c ∈ (Nat.repr n).toList, c ≠ '\n' := by
  rintro c hc rfl
  exact absurd (isDigit_of_mem_repr hc) (by decide)

/-- A character that the bar behind a number does not hold. -/
theorem ne_of_mem_bar {c d : Char} (hd : " | ".toList.contains d = false) (hc : c ∈ " | ".toList) :
    c ≠ d := by
  rintro rfl
  rw [List.contains_iff_mem.mpr hc] at hd
  cases hd

def caretRows (heading : List Char) {source text : List Char} {p : Position}
    (hline : IsLine source p.line text) (hcolumn : p.column ≤ text.length + 1) :
    CaretRows (p.caretDisplay source heading) text p where
  above := heading ++ " (".toList ++ (Nat.repr p.line).toList ++ ":".toList
    ++ (Nat.repr p.column).toList ++ ")".toList
  gutter := ' ' :: (Nat.repr p.line).toList ++ " | ".toList
  margin := ' ' :: List.replicate (Nat.repr p.line).toList.length ' ' ++ " | ".toList
  padding := padding text p.column
  join := by
    rw [caretDisplay, lineText_of_isLine hline]
    simp only [String.reduceToList, List.append_assoc, List.cons_append, List.nil_append]
  lineRow := by
    obtain ⟨-, -, -, -, -, -, -, hfeedless, -⟩ := hline
    simp only [List.mem_append, List.mem_cons]
    rintro c (((rfl | hc) | hc) | hc)
    · decide
    · exact feedless_repr _ c hc
    · exact ne_of_mem_bar (by decide) hc
    · exact hfeedless c hc
  caretRow := by
    simp only [List.mem_append, List.mem_cons, List.not_mem_nil, or_false]
    rintro c ((((rfl | hc) | hc) | hc) | rfl)
    · decide
    · rw [List.eq_of_mem_replicate hc]
      decide
    · exact ne_of_mem_bar (by decide) hc
    · exact feedless_padding text p.column c hc
    · decide
  number := rfl
  aligned := by
    have htake : (text.take (p.column - 1)).length = p.column - 1 := by
      rw [List.length_take]
      omega
    simp only [List.length_append, List.length_cons, List.length_replicate, length_padding hcolumn,
      htake]
  column := length_padding hcolumn
  tabless := by
    simp only [List.mem_append, List.mem_cons]
    rintro c ((rfl | hc) | hc)
    · decide
    · rw [List.eq_of_mem_replicate hc]
      decide
    · exact ne_of_mem_bar (by decide) hc
  tabs := tabs_padding text p.column

end Position

/-! ## Parse errors -/

/-- What an error with a message says of a position in `source`: it is that of `asked` if this lies
in the script, it lies there in any case, and the display ends with its line and a caret. -/
inductive Pinpoints (source : List Char) (asked : Position) (message : String) :
    ExecutionError → Prop
  | intro {p : Position} {shown : String} {text : List Char} (line : IsLine source p.line text)
      (firstLine : 1 ≤ p.line) (lastLine : p.line ≤ newlines source + 1)
      (firstColumn : 1 ≤ p.column) (lastColumn : p.column ≤ text.length + 1)
      (kept : asked.LiesIn source → p = asked)
      (rows : Nonempty (Position.CaretRows shown.toList text p)) :
      Pinpoints source asked message (.malformed message p shown)

namespace ExecutionError

/-- A parse error in `source`, with every subtraction checked. -/
def syntaxError? (source : List Char) (message : String) (position : Position) :
    Option ExecutionError := do
  let position ← position.clamp? source
  let shown ← position.caretDisplay? source (syntaxError.heading message.toList)
  return .malformed message position (String.ofList shown)

theorem syntaxError?_eq (source : List Char) (message : String) (position : Position) :
    syntaxError? source message position = some (syntaxError source message position) := by
  have hshown :
      (position.clamp source).caretDisplay? source (syntaxError.heading message.toList) = some _ :=
    Position.caretDisplay?_eq Position.le_clampNat Position.le_clampNat
  simp only [syntaxError?, Position.clamp?_eq, Option.bind_eq_bind, Option.bind_some, hshown]
  rfl

theorem pinpoints_syntaxError (source : List Char) (message : String) (asked : Position) :
    Pinpoints source asked message (syntaxError source message asked) := by
  have hline := asked.isLine_clamp source
  have hcolumn := asked.clamp_column_le source
  have hrows := Position.caretRows (syntaxError.heading message.toList) hline hcolumn
  refine .intro hline Position.le_clampNat (asked.clamp_line_le source) Position.le_clampNat hcolumn
    Position.clamp_eq_self ⟨?_⟩
  rw [syntaxError.display, String.toList_ofList]
  exact hrows

/-- A parse error read off a text is one at the position of its first frame in the script. -/
theorem ofDiagnostic_malformed {text source : List Char} {wrapperLines : Nat} {message : String}
    {p : Position} {shown : String}
    (h : ofDiagnostic text source wrapperLines = .malformed message p shown) :
    ∃ asked, Position.ofStack? text wrapperLines = some asked ∧
      .malformed message p shown = syntaxError source message asked := by
  unfold ofDiagnostic at h
  cases hfind : ErrorLine.find? text with
  | none =>
    simp only [hfind, ofNoise] at h
    split at h <;> cases h
  | some reported =>
    cases hposition : Position.ofStack? text wrapperLines with
    | none =>
      simp only [hfind, hposition] at h
      cases h
    | some asked =>
      simp only [hfind, hposition] at h
      split at h
      · have hmessage : String.ofList (trim reported.message) = message :=
          (ExecutionError.malformed.inj h).1
        rw [hmessage] at h
        exact ⟨asked, rfl, h.symm⟩
      · cases h

end ExecutionError

/-- Every parse error is at a position in the script, that asked for if it lies there, and its
display ends with that line and a caret below that column: an error built from any position, one
that a reply reports, and one read off the text of a crashed runtime. No subtraction on the way
falls below zero. -/
theorem malformed_pinpoints (source : List Char) :
    (∀ message asked,
        ExecutionError.syntaxError? source message asked =
            some (ExecutionError.syntaxError source message asked) ∧
          Pinpoints source asked message (ExecutionError.syntaxError source message asked)) ∧
      (∀ (reply : Reply) timeout message p shown,
        (reply.toOutput source timeout).outcome = .error (.malformed message p shown) →
        ∃ reported, reply.syntaxError = some reported ∧
          Pinpoints source reported.position reported.message (.malformed message p shown)) ∧
      ∀ text wrapperLines message p shown,
        ExecutionError.ofDiagnostic text source wrapperLines = .malformed message p shown →
        ∃ asked, Position.ofStack? text wrapperLines = some asked ∧
          Pinpoints source asked message (.malformed message p shown) := by
  refine ⟨fun message asked => ⟨ExecutionError.syntaxError?_eq source message asked,
    ExecutionError.pinpoints_syntaxError source message asked⟩, ?_, ?_⟩
  · intro reply timeout message p shown houtcome
    unfold Reply.toOutput at houtcome
    cases hreported : reply.syntaxError with
    | none =>
      simp only [hreported] at houtcome
      split_ifs at houtcome <;> cases houtcome
    | some reported =>
      simp only [hreported, RunOutput.failed, Except.error.injEq] at houtcome
      refine ⟨reported, rfl, ?_⟩
      rw [← houtcome]
      exact ExecutionError.pinpoints_syntaxError source reported.message reported.position
  · intro text wrapperLines message p shown hdiagnostic
    obtain ⟨asked, hasked, herror⟩ := ExecutionError.ofDiagnostic_malformed hdiagnostic
    refine ⟨asked, hasked, ?_⟩
    rw [herror]
    exact ExecutionError.pinpoints_syntaxError source message asked

/-- The tab before the column stands below that of the line. -/
example :
    (Position.mk 2 6).caretDisplay "ok();\n\tfoo(;".toList "SyntaxError: bad".toList =
      "SyntaxError: bad (2:6)\n 2 | \tfoo(;\n   | \t    ^".toList := by
  decide +kernel

end SnippetRunner
